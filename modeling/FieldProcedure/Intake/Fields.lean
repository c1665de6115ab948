import FieldProcedure.Json.Node

/-! Reading typed values from JSON trees. A record stands either as an object, whose unknown members
are passed over, or as a list of its fields in order. -/
namespace FieldProcedure.Intake

open Json

variable {α : Type}

def readText : Node → Except Fault String
  | .scalar (.text s) _ => .ok s
  | n => .error (n.wrong "a string")

def readInt : Node → Except Fault Int
  | .scalar (.int n) stop =>
    if Number.isSigned64 n then .ok n
    else .error ⟨.wrongValue (Scalar.int n).noun "i64", stop⟩
  | n => .error (n.wrong "i64")

def readOr (default : α) (read : Node → Except Fault α) : Node → Except Fault α
  | .scalar .null _ => .ok default
  | n => read n

def readItems (read : Node → Except Fault α) : Items → Except Fault (List α)
  | .closed _ => .ok []
  | .item _ value rest => do
    let a ← read value
    let more ← readItems read rest
    return a :: more
  | .broken fault => .error fault

def readList (read : Node → Except Fault α) : Node → Except Fault (List α)
  | .array _ items => readItems read items
  | n => .error (n.wrong "a sequence")

/-- A list that must end here. What is malformed after a complete record is reported as trailing. -/
def listEnd : Items → Except Fault Unit
  | .closed _ => .ok ()
  | .item start _ _ => .error ⟨.trailingCharacters, start⟩
  | .broken fault =>
    match fault.cause with
    | .endInList | .trailingComma => .error fault
    | _ => .error { fault with cause := .trailingCharacters }

/-- A kind of record: what it is called, its fields in order, and which of them it cannot do
without. A field may be known under several keys; it is reported under the first. -/
structure Shape (φ : Type) where
  name : String
  fields : List φ
  keys : φ → List String
  required : φ → Bool

namespace Shape

variable {φ δ : Type} [BEq φ] (shape : Shape φ)

def expected : String := "struct " ++ shape.name

def field? (key : String) : Option φ := shape.fields.find? fun f => (shape.keys f).contains key

def keyOf (f : φ) : String := (shape.keys f).headD ""

def duplicate (f : φ) (spot : Place) : Fault := ⟨.duplicateField (shape.keyOf f), spot⟩

def checkSeen (seen : List φ) (stop : Place) : Except Fault Unit :=
  match shape.fields.find? fun f => shape.required f && !seen.contains f with
  | some f => .error ⟨.missingField (shape.keyOf f), stop⟩
  | none => .ok ()

def checkLeft (left : List φ) (stop : Place) : Except Fault Unit :=
  match left.find? shape.required with
  | some f =>
    .error ⟨.wrongLength (shape.fields.idxOf f)
      (shape.expected ++ " with " ++ toString shape.fields.length ++ " elements"), stop⟩
  | none => .ok ()

variable (set : φ → Node → δ → Except Fault δ)

def readMembers (seen : List φ) (draft : δ) : Members → Except Fault δ
  | .closed stop => do
    shape.checkSeen seen stop
    return draft
  | .member key spot value rest =>
    match shape.field? key with
    | none => readMembers seen draft rest
    | some f =>
      if seen.contains f then .error (shape.duplicate f spot)
      else do
        let draft ← set f value draft
        readMembers (f :: seen) draft rest
  | .broken fault => .error fault

def readFields (draft : δ) : List φ → Items → Except Fault δ
  | [], items => do
    listEnd items
    return draft
  | left, .closed stop => do
    shape.checkLeft left stop
    return draft
  | f :: left, .item _ value rest => do
    let draft ← set f value draft
    readFields draft left rest
  | _ :: _, .broken fault => .error fault

def read (draft : δ) : Node → Except Fault δ
  | .object _ members => shape.readMembers set [] draft members
  | .array _ items => shape.readFields set draft shape.fields items
  | n => .error (n.wrong shape.expected)

end Shape
end FieldProcedure.Intake
