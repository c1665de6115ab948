import FieldProcedure.Proofs.Counterparts
import Mathlib.Data.List.ReduceOption

/-! Document order. A procedure is walked from the top down, with every group before what is inside
it. The places of the walk are known beforehand: the authored steps in their order, and a start and
an end around every level; at each place stands the operation that belongs there. -/
namespace FieldProcedure

namespace Operation

mutual
def walk : Operation → List Operation
  | .simple base act => [.simple base act]
  | .group base isForm level => .group base isForm level :: walkAll level
def walkAll : List Operation → List Operation
  | [] => []
  | o :: rest => o.walk ++ walkAll rest
end

theorem walkAll_append (ops more : List Operation) :
    walkAll (ops ++ more) = walkAll ops ++ walkAll more := by
  induction ops with
  | nil => rfl
  | cons o rest ih => rw [List.cons_append, walkAll, ih, walkAll, List.append_assoc]

end Operation

namespace Step

mutual
/-- The places of a step in document order. No authored step stands at the ends of a level. -/
def slots : Step → List (Option Step)
  | s@⟨_, _, _, _, _, kind, _, _, _, children⟩ =>
    some s :: if kind = .group then none :: (slotsAll children ++ [none]) else []
def slotsAll : List Step → List (Option Step)
  | [] => []
  | s :: rest => s.slots ++ slotsAll rest
end

def slotsOf (level : List Step) : List (Option Step) := none :: (slotsAll level ++ [none])

theorem slots_eq (s : Step) :
    s.slots = some s :: if s.kind = .group then slotsOf s.children else [] := by
  cases s
  rfl

mutual
theorem reduceOption_slots (s : Step) : s.slots.reduceOption = s.reached := by
  obtain ⟨_, _, _, _, _, kind, _, _, _, children⟩ := s
  rw [slots_eq, reached_eq, List.reduceOption_cons_of_some]
  split
  · have inside := reduceOption_slotsAll children
    simp [slotsOf, List.reduceOption_append, inside]
  · rfl
theorem reduceOption_slotsAll (steps : List Step) :
    (slotsAll steps).reduceOption = reachedAll steps := by
  cases steps with
  | nil => rfl
  | cons s rest =>
    rw [slotsAll, List.reduceOption_append, reduceOption_slots s, reduceOption_slotsAll rest,
      reachedAll]
end

theorem reduceOption_slotsOf (level : List Step) :
    (slotsOf level).reduceOption = reachedAll level := by
  simp [slotsOf, List.reduceOption_append, reduceOption_slotsAll]

def isGroup (s : Step) : Bool := s.kind = .group

mutual
theorem length_slots (s : Step) :
    s.slots.length = s.reached.length + 2 * s.reached.countP isGroup := by
  obtain ⟨_, _, _, _, _, kind, _, _, _, children⟩ := s
  rw [slots_eq, reached_eq]
  have inside := length_slotsAll children
  by_cases hgroup : kind = .group
  · simp only [hgroup, if_true, slotsOf, List.length_cons, List.length_append, List.length_nil,
      inside, isGroup, decide_true, List.countP_cons_of_pos]
    omega
  · simp [hgroup, isGroup]
theorem length_slotsAll (steps : List Step) :
    (slotsAll steps).length =
      (reachedAll steps).length + 2 * (reachedAll steps).countP isGroup := by
  cases steps with
  | nil => rfl
  | cons s rest =>
    have here := length_slots s
    have later := length_slotsAll rest
    simp only [slotsAll, reachedAll, List.length_append, List.countP_append]
    omega
end

theorem length_slotsOf (level : List Step) : (slotsOf level).length =
    (reachedAll level).length + 2 + 2 * (reachedAll level).countP isGroup := by
  have inside := length_slotsAll level
  simp only [slotsOf, List.length_cons, List.length_append, List.length_nil]
  omega

end Step

inductive Stands : Option Step → Operation → Prop
  | start {b : Base} : Stands none (.simple b .start)
  | finish {b : Base} : Stands none (.simple b .terminate)
  | simple {s : Step} {b : Base} {a : Act} : s.kind ≠ .group → Asks s a →
    Stands (some s) (.simple b a)
  | group {s : Step} {b : Base} {isForm : Bool} {ops : List Operation} : s.kind = .group →
    Stands (some s) (.group b isForm ops)

section

variable {generated : String → Prop}

theorem MirrorsAll.walked {k : Nat} {steps : List Step} {ops : List Operation}
    (inside : ∀ s ∈ steps, ∀ ops, MirrorsLevel generated s.children ops →
      List.Forall₂ Stands (Step.slotsOf s.children) (Operation.walkAll ops))
    (h : MirrorsAll generated k steps ops) :
    List.Forall₂ Stands (Step.slotsAll steps) (Operation.walkAll ops) := by
  induction steps generalizing k ops with
  | nil =>
    cases h
    exact .nil
  | cons s rest ih =>
    obtain ⟨below, beyond⟩ := List.forall_mem_cons.mp inside
    cases h with
    | cons here later =>
      refine List.rel_append ?_ (ih beyond later)
      rw [Step.slots_eq]
      cases here with
      | simple hkind _ asks =>
        rw [if_neg hkind]
        exact .cons (.simple hkind asks) .nil
      | group hkind _ level =>
        rw [if_pos hkind]
        exact .cons (.group hkind) (below _ level)

theorem MirrorsLevel.walked {level : List Step} {ops : List Operation}
    (h : MirrorsLevel generated level ops) :
    List.Forall₂ Stands (Step.slotsOf level) (Operation.walkAll ops) := by
  induction level using Step.levelInduction generalizing ops with
  | h level ih =>
    cases h with
    | framed _ inner _ =>
      have walked := inner.walked fun s hs _ => ih s hs
      rw [List.cons_append, Operation.walkAll, Operation.walkAll_append]
      exact .cons .start (List.rel_append walked (.cons .finish .nil))

end

theorem Workflow.compile_walked {w : Workflow} {settings : Settings} {p : Procedure}
    (h : w.compile settings = .ok p) :
    List.Forall₂ Stands (Step.slotsOf w.steps) (Operation.walkAll p.level) := by
  obtain ⟨_, mirrors⟩ := Workflow.exists_mirrored h
  exact mirrors.walked

end FieldProcedure
