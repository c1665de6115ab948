import FieldProcedure.Step.Basic
import FieldProcedure.Identifier

/-! The connections of one level. A level is framed by a start and an end; a step that declares no
path leads to the one after it; then each path becomes a connection between two ids. -/
namespace FieldProcedure

structure Link where
  id : String
  source : String
  sink : String
  label : String
deriving DecidableEq, Repr, Inhabited

structure Wired where
  step : Step
  id : String
  position : Nat
  links : List Link
deriving Repr, Inhabited

namespace Wiring

def opening : Step := { index := startIndex, kind := .start, title := "Start" }

def closing : Step := { index := finishIndex, kind := .finish, title := "End" }

def framed (level : List Step) : List Step := opening :: level ++ [closing]

def idOf (s : Step) : Drawing String :=
  match s.suppliedId? with
  | some id => pure id
  | none => Pool.fresh

def idsOf : List Step → Drawing (List String)
  | [] => pure []
  | s :: rest => do
    let id ← idOf s
    let ids ← idsOf rest
    pure (id :: ids)

def leadingTo (next : Int) (s : Step) : Step :=
  if s.paths.isEmpty && s.kind ≠ .finish then { s with paths := [⟨next, ""⟩] } else s

def withDefaults : List Step → List Step
  | s :: next :: rest => leadingTo next.index s :: withDefaults (next :: rest)
  | level => level

def linksOf (ids : List (Int × String)) (index : Int) (source : String) :
    List Path → Drawing (List Link)
  | [] => pure []
  | p :: rest =>
    match ids.lookup p.target with
    | none => throw (.unresolvedTarget index p.target)
    | some sink => do
      let id ← Pool.fresh
      let links ← linksOf ids index source rest
      pure (⟨id, source, sink, p.label⟩ :: links)

def connect (ids : List (Int × String)) : Nat → List (Step × String) → Drawing (List Wired)
  | _, [] => pure []
  | position, (s, id) :: rest => do
    let links ← linksOf ids s.index id s.paths
    let wired ← connect ids (position + 1) rest
    pure (⟨s, id, position, links⟩ :: wired)

end Wiring

def wire (level : List Step) : Drawing (List Wired) :=
  let steps := Wiring.framed level
  match firstRepeat? [] (steps.map (·.index)) with
  | some index => throw (.duplicateIndex index)
  | none => do
    let ids ← Wiring.idsOf steps
    let byIndex := (steps.map (·.index)).zip ids
    Wiring.connect byIndex 0 ((Wiring.withDefaults steps).zip ids)

end FieldProcedure
