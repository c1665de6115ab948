import FieldProcedure.Wiring

/-! What the steps of a level compile to: operations, each with its connections and its position,
and a group with the operations of its own level. -/
namespace FieldProcedure

inductive InputType
  | text | numeric | photo | video | signature | barcode | dateTime | selection
deriving DecidableEq, Repr, Inhabited

def InputType.name : InputType → String
  | .text => "Text"
  | .numeric => "Numeric"
  | .photo => "Photo"
  | .video => "Video"
  | .signature => "Signature"
  | .barcode => "Barcode"
  | .dateTime => "DateTime"
  | .selection => "Selection"

inductive Constraint
  | unconstrained
  | dateTime
  | selection (choices : List String) (fixedMode : Bool) (least most : Nat)
deriving DecidableEq, Repr, Inhabited

structure Input where
  type : InputType
  isOptional : Bool
  dynamicUrl : Option String := none
  constraint : Constraint := .unconstrained
deriving DecidableEq, Repr, Inhabited

inductive Act
  | confirm | start | terminate | decision
  | input (i : Input)
deriving DecidableEq, Repr, Inhabited

structure Base where
  id : String
  title : String
  description : String
  tag : Option String
  links : List Link
  position : Nat
deriving DecidableEq, Repr, Inhabited

inductive Operation
  | simple (base : Base) (act : Act)
  | group (base : Base) (isForm : Bool) (level : List Operation)
deriving Repr, Inhabited

def Operation.base : Operation → Base
  | .simple base _ => base
  | .group base _ _ => base

def Act.typeName : Act → String
  | .confirm => "ConfirmStep"
  | .start => "StartStep"
  | .terminate => "TerminateGroupStep"
  | .decision => "DecisionStep"
  | .input _ => "InputStep"

def Operation.typeName : Operation → String
  | .simple _ act => act.typeName
  | .group .. => "GroupStep"

mutual
def Operation.ids : Operation → List String
  | .simple base _ => [base.id]
  | .group base _ level => base.id :: Operation.idsAll level
def Operation.idsAll : List Operation → List String
  | [] => []
  | o :: rest => o.ids ++ Operation.idsAll rest
end

end FieldProcedure
