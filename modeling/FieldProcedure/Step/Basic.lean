import FieldProcedure.Step.Kind
import FieldProcedure.Step.Config

/-! Steps as their author gives them: trees, since a step holds its sub-steps. A flat list of
entries, each with the index of its parent, is the other form of the same trees. -/
namespace FieldProcedure

def startIndex : Int := -1

def finishIndex : Int := -2

structure Path where
  target : Int
  label : String := ""
deriving DecidableEq, Repr, Inhabited

structure Step where
  id : Option String := none
  index : Int
  title : String := ""
  description : String := ""
  tag : String := ""
  kind : Kind := .instruction
  paths : List Path := []
  options : List String := []
  config : Config := {}
  children : List Step := []
deriving Repr, Inhabited

/-- A step of a flat list. Its parent is the entry of that index. -/
structure Entry where
  step : Step
  parent : Option Int := none
deriving Repr, Inhabited

structure Workflow where
  title : String
  description : Option String := none
  steps : List Step
deriving Repr, Inhabited

def Step.suppliedId? (s : Step) : Option String := s.id.bind Text.trimmed?

mutual
def Step.size : Step → Nat
  | ⟨_, _, _, _, _, _, _, _, _, children⟩ => 1 + Step.sizeAll children
def Step.sizeAll : List Step → Nat
  | [] => 0
  | s :: rest => s.size + Step.sizeAll rest
end

/-- The value whose second occurrence comes first, if a value occurs twice. -/
def firstRepeat? : List Int → List Int → Option Int
  | _, [] => none
  | seen, n :: rest => if n ∈ seen then some n else firstRepeat? (n :: seen) rest

end FieldProcedure
