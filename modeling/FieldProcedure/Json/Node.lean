import FieldProcedure.Json.Extent
import FieldProcedure.Json.Scalar
import FieldProcedure.Keyed
import FieldProcedure.Text.Quoted

/-! JSON text as a tree with places. The tree is read to the end whatever the text should mean;
where it is malformed the tree is broken, with the fault in that spot, so that whoever walks the
tree in order meets a wrong type and a malformed spot in the order of the text. After a member that
is broken the reading goes on where the member's extent ends, for those who pass over it. -/
namespace FieldProcedure.Json

mutual
inductive Node
  | scalar (s : Scalar) (stop : Place)
  | array (start : Place) (items : Items)
  | object (start : Place) (members : Members)
  | broken (fault : Fault)

inductive Items
  | closed (stop : Place)
  | item (start : Place) (value : Node) (rest : Items)
  | broken (fault : Fault)

/-- Beside each member stands the place at which its key is reported if it must not be there. -/
inductive Members
  | closed (stop : Place)
  | member (key : String) (spot : Place) (value : Node) (rest : Members)
  | broken (fault : Fault)
end

namespace Node

abbrev Reading (α : Type) := α × Option Cursor

variable (inner : Cursor → Reading Node)

def readItem (more : Cursor → Reading Items) (c : Cursor) : Reading Items :=
  match inner c with
  | (value, none) => (.item c.ahead value (.broken ⟨.endInList, c.ahead⟩), none)
  | (value, some c') =>
    let (rest, stop) := more c'
    (.item c.ahead value rest, stop)

def readItems : List UInt8 → Bool → Cursor → Reading Items
  | [], _, c => (.broken ⟨.endInList, c.ahead⟩, none)
  | _ :: bound, first, c =>
    let c := c.skipSpaces
    match c.peek? with
    | none => (.broken ⟨.endInList, c.ahead⟩, none)
    | some b =>
      if b = octet ']' then (.closed c.ahead, some c.advance)
      else if first then readItem inner (readItems bound false) c
      else if b = octet ',' then
        let c := c.advance.skipSpaces
        match c.peek? with
        | none => (.broken ⟨.endInValue, c.ahead⟩, none)
        | some b =>
          if b = octet ']' then (.broken ⟨.trailingComma, c.ahead⟩, none)
          else readItem inner (readItems bound false) c
      else (.broken ⟨.expectedListEnd, c.ahead⟩, none)

/-- Where a key is reported: after the bracket if that comes next, and else once the next octet has
been looked at. -/
def keySpot (c : Cursor) : Place :=
  let c := c.skipSpaces
  if c.peek? = some (octet '\x7d') then c.ahead else c.reached

def readMember (more : Cursor → Reading Members) (c : Cursor) : Reading Members :=
  match Scanner.string.run c.advance with
  | .error fault => (.broken fault, none)
  | .ok (key, c) =>
    let spot := keySpot c
    let c := c.skipSpaces
    let broken (cause : Cause) : Reading Members :=
      let fault : Fault := ⟨cause, c.ahead⟩
      (.member key spot (.broken fault) (.broken fault), none)
    match c.peek? with
    | none => broken .endInObject
    | some b =>
      if b ≠ octet ':' then broken .expectedColon
      else
        let c := c.advance
        let (value, stop) := inner c
        let after : Except Fault Cursor := match stop with
          | some c' => .ok c'
          | none => c.skipValue
        match after with
        | .error fault => (.member key spot value (.broken fault), none)
        | .ok c' =>
          let (rest, stop) := more c'
          (.member key spot value rest, stop)

def readMembers : List UInt8 → Bool → Cursor → Reading Members
  | [], _, c => (.broken ⟨.endInObject, c.ahead⟩, none)
  | _ :: bound, first, c =>
    let c := c.skipSpaces
    match c.peek? with
    | none => (.broken ⟨.endInObject, c.ahead⟩, none)
    | some b =>
      if b = octet '\x7d' then (.closed c.ahead, some c.advance)
      else if first then
        if b = octet '"' then readMember inner (readMembers bound false) c
        else (.broken ⟨.keyNotString, c.ahead⟩, none)
      else if b = octet ',' then
        let c := c.advance.skipSpaces
        match c.peek? with
        | none => (.broken ⟨.endInValue, c.ahead⟩, none)
        | some b =>
          if b = octet '"' then readMember inner (readMembers bound false) c
          else if b = octet '\x7d' then (.broken ⟨.trailingComma, c.ahead⟩, none)
          else (.broken ⟨.keyNotString, c.ahead⟩, none)
      else (.broken ⟨.expectedObjectEnd, c.ahead⟩, none)

/-- Where a scalar is reported. A number ends only once the octet after it has been looked at. -/
def stopOf (s : Scalar) (c : Cursor) : Place :=
  match s with
  | .int _ | .float _ => c.reached
  | _ => c.place

def readScalar (c : Cursor) : Reading Node :=
  match Scanner.scalar.run c with
  | .error fault => (.broken fault, none)
  | .ok (s, c') => (.scalar s (stopOf s c'), some c')

def read : Nat → Cursor → Reading Node
  | depth, c =>
    let c := c.skipSpaces
    if c.peek? = some (octet '[') then
      match depth with
      | 0 => (.array c.reached (.broken ⟨.tooDeep, c.ahead⟩), none)
      | depth + 1 =>
        let (items, stop) := readItems (read depth) c.rest true c.advance
        (.array c.reached items, stop)
    else if c.peek? = some (octet '\x7b') then
      match depth with
      | 0 => (.object c.reached (.broken ⟨.tooDeep, c.ahead⟩), none)
      | depth + 1 =>
        let (members, stop) := readMembers (read depth) c.rest true c.advance
        (.object c.reached members, stop)
    else readScalar c

end Node

mutual
def Node.value : Node → Except Fault Json
  | .scalar s _ => .ok (.scalar s)
  | .array _ items => return .array (← items.values)
  | .object _ members => return .object (← members.values [])
  | .broken fault => .error fault

def Items.values : Items → Except Fault (List Json)
  | .closed _ => .ok []
  | .item _ value rest => do
    let v ← value.value
    let vs ← rest.values
    return v :: vs
  | .broken fault => .error fault

def Members.values (before : List (String × Json)) : Members → Except Fault (List (String × Json))
  | .closed _ => .ok before
  | .member key _ value rest => do
    let v ← value.value
    rest.values (Keyed.place key v before)
  | .broken fault => .error fault
end

def Scalar.noun : Scalar → String
  | .null => "null"
  | .bool b => "boolean `" ++ (if b then "true" else "false") ++ "`"
  | .int n => "integer `" ++ toString n ++ "`"
  | .float x => "floating point `" ++ x.toText ++ "`"
  | .text s => "string " ++ Text.quoted s

def Node.wrong (expected : String) : Node → Fault
  | .scalar s stop => ⟨.wrongType s.noun expected, stop⟩
  | .array start _ => ⟨.wrongType "sequence" expected, start⟩
  | .object start _ => ⟨.wrongType "map" expected, start⟩
  | .broken fault => fault

structure Document where
  root : Node
  trailing : Option Fault

def maxDepth : Nat := 127

def Document.read (depth : Nat) (origin : Origin) (octets : List UInt8) : Document :=
  match Node.read depth { rest := octets, origin } with
  | (root, none) => ⟨root, none⟩
  | (root, some c) =>
    let c := c.skipSpaces
    ⟨root, if c.rest.isEmpty then none else some ⟨.trailingCharacters, c.ahead⟩⟩

def Document.decode {α : Type} (decode : Node → Except Fault α) (d : Document) :
    Except Fault α := do
  let a ← decode d.root
  match d.trailing with
  | none => return a
  | some fault => throw fault

end FieldProcedure.Json
