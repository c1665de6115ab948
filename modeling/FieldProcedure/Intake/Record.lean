import FieldProcedure.Text.Utf8

/-! Records of comma-separated fields. A quote is special where a field begins: the field then runs
to the next quote that is not doubled, and what follows that quote is added as it is. A record ends
at a line feed or a carriage return, and empty lines are no records. -/
namespace FieldProcedure.Intake

/-- What came from a source: all of its octets, or those before the failure that broke it off. -/
structure Received where
  octets : List UInt8
  failure : Option String := none
deriving DecidableEq, Repr, Inhabited

/-- Where a record begins: after so many octets, in this line, with so many records before it. The
line feed of a preceding carriage return and empty lines lie after that point. -/
structure Mark where
  octet : Nat := 0
  line : Nat := 1
  record : Nat := 0
deriving DecidableEq, Repr, Inhabited

structure Record where
  mark : Mark
  fields : List (List UInt8)
deriving DecidableEq, Repr, Inhabited

namespace Record

inductive Spot
  | between | fieldStart | bare | quoted | afterQuote
deriving DecidableEq, Repr

structure Reader where
  spot : Spot := .between
  octet : Nat := 0
  line : Nat := 1
  mark : Mark := {}
  field : List UInt8 := []
  fields : List (List UInt8) := []
  records : List Record := []

namespace Reader

variable (r : Reader)

def push (b : UInt8) (spot : Spot) : Reader := { r with spot, field := b :: r.field }

def endField : Reader :=
  { r with spot := .fieldStart, field := [], fields := r.field.reverse :: r.fields }

def endRecord : Reader :=
  { r with
    spot := .between
    mark := ⟨r.octet, r.line, r.mark.record + 1⟩
    field := []
    fields := []
    records := ⟨r.mark, (r.field.reverse :: r.fields).reverse⟩ :: r.records }

def isLineEnd (b : UInt8) : Bool := b = 10 || b = 13

def feedBare (b : UInt8) (push : Reader) : Reader :=
  if b = 44 then r.endField else if isLineEnd b then r.endRecord else push

def feedStart (b : UInt8) : Reader :=
  if b = 34 then { r with spot := .quoted } else r.feedBare b (r.push b .bare)

def feed (b : UInt8) : Reader :=
  let r := { r with octet := r.octet + 1, line := if b = 10 then r.line + 1 else r.line }
  match r.spot with
  | .between => if isLineEnd b then r else r.feedStart b
  | .fieldStart => r.feedStart b
  | .bare => r.feedBare b (r.push b .bare)
  | .quoted => if b = 34 then { r with spot := .afterQuote } else r.push b .quoted
  | .afterQuote => if b = 34 then r.push b .quoted else r.feedBare b (r.push b .bare)

def finish : List Record :=
  match r.spot with
  | .between => r.records.reverse
  | _ => r.endRecord.records.reverse

end Reader

def Reader.feedAll (octets : List UInt8) : Reader :=
  match octets with
  | 0xEF :: 0xBB :: 0xBF :: rest => rest.foldl Reader.feed { octet := 3 }
  | _ => octets.foldl Reader.feed {}

/-- All records. A byte order mark at the beginning belongs to none. The record in which the source
broke off is not among them. -/
def readAll (input : Received) : List Record :=
  let reader := Reader.feedAll input.octets
  match input.failure with
  | none => reader.finish
  | some _ => reader.records.reverse

def isAsciiBlank (b : UInt8) : Bool := b = 32 || b = 9 || b = 10 || b = 12 || b = 13

def stripAscii (bs : List UInt8) : List UInt8 :=
  ((bs.dropWhile isAsciiBlank).reverse.dropWhile isAsciiBlank).reverse

def decodeFrom (number : Nat) : List (List UInt8) → Except (Nat × Nat) (List String)
  | [] => .ok []
  | field :: rest =>
    match Text.Utf8.decode (stripAscii field) with
    | .error valid => .error (number, valid)
    | .ok s => (decodeFrom (number + 1) rest).map (s :: ·)

def decode (r : Record) : Except (Nat × Nat) (List String) := decodeFrom 0 r.fields

end Record
end FieldProcedure.Intake
