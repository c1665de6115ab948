import FieldProcedure.Proofs.Compilation
import FieldProcedure.Proofs.Vetting

/-! No two things in a procedure have the same identifier. Each identifier in it is one that vetting
met once or one that the pool handed out once, and the pool hands out nothing that vetting met. The
argument counts occurrences, because counts of lists add up where distinctness does not. -/
namespace FieldProcedure

mutual
def Operation.linkIds : Operation → List String
  | .simple base _ => base.links.map (·.id)
  | .group base _ level => base.links.map (·.id) ++ Operation.linkIdsAll level
def Operation.linkIdsAll : List Operation → List String
  | [] => []
  | o :: rest => o.linkIds ++ Operation.linkIdsAll rest
end

def Procedure.linkIds (p : Procedure) : List String := Operation.linkIdsAll p.level

namespace Compilation
open Drawing Pool Wiring Step

variable {p q : Pool} {level : List Step} {wired : List Wired} {ops : List Operation}

/-- Compiled from this pool, the level uses the ids that its steps supply and what the pool hands
out, and uses none of them twice. -/
def UsesOnce (level : List Step) : Prop :=
  ∀ ⦃p ops q⦄, Gives (compileLevel level) p ops q → ∃ drawn, Hands p drawn q ∧
    ∀ x, (Operation.idsAll ops).count x + (Operation.linkIdsAll ops).count x ≤
      (suppliedFrom level).count x + drawn.count x

theorem count_cons_eq (a x : String) (l : List String) :
    (a :: l).count x = [a].count x + l.count x := by
  rw [← List.count_append, List.singleton_append]

theorem compileWired_count {w : Wired} {o : Operation}
    (inner : w.step.kind = .group → UsesOnce w.step.children)
    (h : Gives (compileWired w) p o q) : ∃ drawn, Hands p drawn q ∧
      ∀ x, o.ids.count x + o.linkIds.count x ≤
        [w.id].count x + (w.links.map (·.id)).count x + w.step.suppliedInside.count x +
          drawn.count x := by
  have links : ∀ x, ((base w).links.map (·.id)).count x ≤ (w.links.map (·.id)).count x := by
    intro x
    simp only [base]
    split
    · exact Nat.zero_le _
    · exact Nat.le_refl _
  unfold compileWired at h
  split at h
  · next hgroup =>
    obtain ⟨ops, r, hops, h⟩ := gives_bind.mp h
    obtain ⟨rfl, rfl⟩ := gives_pure.mp h
    obtain ⟨drawn, hands, bound⟩ := inner hgroup hops
    refine ⟨drawn, hands, fun x => ?_⟩
    have below := bound x
    have here := links x
    rw [suppliedInside_eq, if_pos hgroup, Operation.ids, Operation.linkIds, List.count_append,
      count_cons_eq]
    simp only [base] at *
    omega
  · next hgroup =>
    unfold simple at h
    split at h
    · next a ha =>
      obtain ⟨rfl, rfl⟩ := gives_pure.mp h
      refine ⟨[], .nothing p, fun x => ?_⟩
      have here := links x
      rw [suppliedInside_eq, if_neg hgroup, Operation.ids, Operation.linkIds]
      simp only [base, List.count_nil] at *
      omega
    · exact absurd h gives_throw

theorem compileAll_count (inner : ∀ w ∈ wired, w.step.kind = .group → UsesOnce w.step.children)
    (h : Gives (compileAll wired) p ops q) : ∃ drawn, Hands p drawn q ∧
      ∀ x, (Operation.idsAll ops).count x + (Operation.linkIdsAll ops).count x ≤
        (wired.map (·.id)).count x + (linkIds wired).count x +
          (wired.flatMap (·.step.suppliedInside)).count x + drawn.count x := by
  induction wired generalizing p ops with
  | nil =>
    obtain ⟨rfl, rfl⟩ := gives_pure.mp h
    exact ⟨[], .nothing p, by simp [Operation.idsAll, Operation.linkIdsAll]⟩
  | cons w rest ih =>
    obtain ⟨o, r, ho, h⟩ := gives_bind.mp h
    obtain ⟨os, r', hos, h⟩ := gives_bind.mp h
    obtain ⟨rfl, rfl⟩ := gives_pure.mp h
    obtain ⟨drawn, hands, bound⟩ := compileWired_count (inner w List.mem_cons_self) ho
    obtain ⟨drawn', hands', bound'⟩ := ih (fun w' h' => inner w' (List.mem_cons_of_mem _ h')) hos
    refine ⟨drawn ++ drawn', hands.append hands', fun x => ?_⟩
    have first := bound x
    have others := bound' x
    rw [List.map_cons, count_cons_eq, Operation.idsAll, Operation.linkIdsAll, linkIds,
      List.flatMap_cons, List.flatMap_cons]
    simp only [List.count_append, linkIds] at *
    omega

theorem suppliedInside_wired {drawn : List String} (h : Wires level wired drawn) :
    wired.flatMap (·.step.suppliedInside) = level.flatMap suppliedInside := by
  have same : ∀ next s, (leadingTo next s).suppliedInside = s.suppliedInside := by
    intro next s
    have alike := alike_leadingTo next s
    rw [suppliedInside_eq, suppliedInside_eq, alike.kind, alike.children]
  calc wired.flatMap (·.step.suppliedInside)
      = ((wired.map (·.step)).map suppliedInside).flatten := by
        rw [List.flatMap_def, List.map_map]
        rfl
    _ = ((framed level).map suppliedInside).flatten := by rw [h.steps, map_withDefaults same]
    _ = level.flatMap suppliedInside := by
        unfold framed
        rw [List.map_append, List.flatten_append, List.map_cons, List.flatten_cons,
          ← List.flatMap_def]
        exact List.append_nil _

theorem usesOnce (level : List Step) : UsesOnce level := by
  induction level using levelInduction with
  | h level ih =>
    intro p ops q h
    rw [compileLevel_eq] at h
    obtain ⟨wired, r, hwire, h⟩ := gives_bind.mp h
    obtain ⟨drawn, hands, wires⟩ := wire_gives hwire
    -- A wired group is an authored step, so the induction reaches its children.
    have inner : ∀ w ∈ wired, w.step.kind = .group → UsesOnce w.step.children := by
      intro w hw hgroup
      obtain ⟨k, hk⟩ := List.mem_iff_getElem?.mp hw
      obtain ⟨s, hs⟩ := wires.exists_step hk
      have alike := alike_step wires hs hk
      rw [alike.kind] at hgroup
      obtain ⟨i, _, hs⟩ := getElem?_authored hs (by rw [hgroup]; decide)
      rw [alike.children]
      exact ih s (List.mem_of_getElem? hs)
    obtain ⟨drawn', hands', bound⟩ := compileAll_count inner h
    refine ⟨_, hands.append hands', fun x => ?_⟩
    have named : (wired.map (·.id)).count x =
        (level.filterMap suppliedId?).count x + drawn.count x := by
      rw [wires.named.perm.count_eq, List.count_append, filterMap_framed]
    have all := bound x
    rw [suppliedInside_wired wires] at all
    rw [suppliedFrom_eq]
    simp only [List.count_append] at *
    omega

end Compilation

open Drawing in
theorem Workflow.ids_count {w : Workflow} {settings : Settings} {p : Procedure}
    (h : w.compile settings = .ok p) : ∃ ids : List String, ids.Nodup ∧
      ∀ x, (p.stepIds ++ p.linkIds ++ [p.id]).count x ≤ ids.count x := by
  obtain ⟨supplied, r, hv, h⟩ := Workflow.compile_ok h
  obtain ⟨q, hlevel, hid⟩ := Workflow.gives_drawing h
  obtain ⟨drawn, hands, bound⟩ := Compilation.usesOnce w.steps hlevel
  have all := hands.append (.one hid)
  refine ⟨Step.suppliedFrom w.steps ++ (drawn ++ [p.id]), ?_, fun x => ?_⟩
  · obtain ⟨wf, perm⟩ := Vetting.suppliedIds_ok hv
    -- What is supplied is reserved before anything is drawn.
    refine wf.unshared.append all.nodup fun x hx hx' => ?_
    exact all.free x hx' (Pool.mem_reserve.mpr (.inl (perm.mem_iff.mpr hx)))
  · have used := bound x
    simp only [Procedure.stepIds, Procedure.linkIds, List.count_append] at *
    omega

theorem compiled_ids_distinct {w : Workflow} {settings : Settings} {p : Procedure}
    (h : w.compile settings = .ok p) : (p.stepIds ++ p.linkIds ++ [p.id]).Nodup := by
  obtain ⟨ids, distinct, bound⟩ := Workflow.ids_count h
  exact List.nodup_iff_count_le_one.mpr fun x =>
    Nat.le_trans (bound x) (List.nodup_iff_count_le_one.mp distinct x)

theorem pumpInspection_ids_distinct :
    ∃ p, Workflow.pumpInspection.compile Workflow.stuttering = .ok p ∧
      (p.stepIds ++ p.linkIds ++ [p.id]).Nodup := by
  obtain ⟨p, h⟩ := Workflow.pumpInspection_compiles
  exact ⟨p, h, compiled_ids_distinct h⟩

end FieldProcedure
