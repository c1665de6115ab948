import FieldProcedure.Step.Basic
import FieldProcedure.Failure

/-! The trees that a flat list describes. Depths spread from the top-level entries outwards, one
round for each level; an entry that no round reaches has no parent or stands on a cycle. Then the
levels move into their parents, from the deepest upwards. -/
namespace FieldProcedure.Outline

variable (entries : List Entry)

def indexes : List Int := entries.map (·.step.index)

def deepen (depth : Nat) (frontier : List Int) :
    List (Entry × Option Nat) → List (Entry × Option Nat)
  | [] => []
  | (e, some d) :: rest => (e, some d) :: deepen depth frontier rest
  | (e, none) :: rest =>
    let here := match e.parent with
      | some p => if p ∈ frontier then some depth else none
      | none => none
    (e, here) :: deepen depth frontier rest

def frontierAt (depth : Nat) (slots : List (Entry × Option Nat)) : List Int :=
  (slots.filter fun (_, d) => d == some depth).map fun (e, _) => e.step.index

/-- Rounds until one reaches nothing new. Each round but the last gives a depth to some entry, so as
many rounds as there are entries, and one more, are enough. -/
def spread : Nat → Nat → List (Entry × Option Nat) → List (Entry × Option Nat)
  | 0, _, slots => slots
  | rounds + 1, depth, slots =>
    match frontierAt depth slots with
    | [] => slots
    | frontier => spread rounds (depth + 1) (deepen (depth + 1) frontier slots)

def depthSlots : List (Entry × Option Nat) :=
  spread (entries.length + 1) 0 (entries.map fun e => (e, if e.parent.isNone then some 0 else none))

def stranded : List (Int × Int) :=
  (depthSlots entries).filterMap fun (e, d) =>
    match d, e.parent with
    | none, some p => some (e.step.index, p)
    | _, _ => none

/-- The depth of every entry. Of the stranded entries the first without a parent in the list is
reported, and if there is none then the first of all. -/
def depths : Except CompileError (List Nat) :=
  let lost := stranded entries
  match lost.find? (fun (_, p) => p ∉ indexes entries), lost with
  | some (index, parent), _ => .error (.unresolvedParent index parent)
  | none, (index, parent) :: _ => .error (.parentCycle index parent)
  | none, [] => .ok ((depthSlots entries).map fun (_, d) => d.getD 0)

/-- Steps on their way up, each with the index of the entry that it goes into, in the order in which
they set out. -/
abbrev Waiting := List (Int × Step)

def adopt (s : Step) (waiting : Waiting) : Step × Waiting :=
  let (arrived, others) := waiting.partition fun (parent, _) => parent == s.index
  ({ s with children := s.children ++ arrived.map (·.2) }, others)

def lift : Waiting → Waiting → Waiting
  | [], waiting => waiting
  | (parent, s) :: rest, waiting =>
    let (whole, others) := adopt s waiting
    lift rest (others ++ [(parent, whole)])

def settle : List Step → Waiting → List Step
  | [], _ => []
  | s :: rest, waiting =>
    let (whole, others) := adopt s waiting
    whole :: settle rest others

def levelAt (placed : List (Entry × Nat)) (depth : Nat) : Waiting :=
  placed.filterMap fun (e, d) => if d = depth then e.parent.map (·, e.step) else none

def topLevel (placed : List (Entry × Nat)) : List Step :=
  (placed.filter fun (e, d) => e.parent.isNone || d == 0).map fun (e, _) => e.step

def liftFrom (placed : List (Entry × Nat)) : Nat → Waiting → Waiting
  | 0, waiting => waiting
  | depth + 1, waiting => liftFrom placed depth (lift (levelAt placed (depth + 1)) waiting)

def forest : Except CompileError (List Step) :=
  match firstRepeat? [] (indexes entries) with
  | some index => .error (.duplicateIndex index)
  | none => do
    let ds ← depths entries
    let placed := entries.zip ds
    pure (settle (topLevel placed) (liftFrom placed (ds.max?.getD 0) []))

end FieldProcedure.Outline
