import FieldProcedure.Proofs.Depths
import Mathlib.Data.List.Forall2
import Mathlib.Order.Bounds.Basic

/-! The depths of a flat list as distances. Every turn of the loop but the last reaches a depth of
its own, so it turns at most once for each entry. The depths that it finds solve the equations of
shortest distances along the references to parents, and these have no other solution, also where
indexes repeat. -/
namespace FieldProcedure.Outline

variable {entries : List Entry} {depth : Nat} {slots : List (Entry × Option Nat)}

/-- From this depth and these slots the loop turns so many times, each time because something stands
at the depth that it has come to, and ends with the last slots because nothing does any more. -/
inductive Turns : Nat → List (Entry × Option Nat) → Nat → List (Entry × Option Nat) → Prop
  | stop {depth : Nat} {slots : List (Entry × Option Nat)} : frontierAt depth slots = [] →
    Turns depth slots 0 slots
  | turn {depth turns : Nat} {slots last : List (Entry × Option Nat)} :
    frontierAt depth slots ≠ [] →
    Turns (depth + 1) (deepen (depth + 1) (frontierAt depth slots) slots) turns last →
    Turns depth slots (turns + 1) last

def opened (entries : List Entry) : List (Entry × Option Nat) :=
  entries.map fun e => (e, if e.parent.isNone then some 0 else none)

/-- The depths passed and the turns to come are no more than the entries, so that the bound on the
rounds never cuts the loop short. -/
theorem Spread.exists_turns (h : Spread entries depth slots) {rounds : Nat}
    (full : ∀ k < depth, ∃ e ∈ entries, AtDepth entries k e)
    (enough : entries.length < rounds + depth) :
    ∃ turns, depth + turns ≤ entries.length ∧
      Turns depth slots turns (Outline.spread rounds depth slots) := by
  induction rounds generalizing depth slots with
  | zero =>
    have short := h.depth_le full
    omega
  | succ rounds ih =>
    rw [Outline.spread]
    split
    · next none_left => exact ⟨0, h.depth_le full, .stop none_left⟩
    · next some_left =>
      obtain ⟨index, hindex⟩ := List.exists_mem_of_ne_nil _ some_left
      obtain ⟨p, hp, _, at_depth⟩ := h.mem_frontierAt.mp hindex
      have full' : ∀ k < depth + 1, ∃ e ∈ entries, AtDepth entries k e := by
        intro k hk
        rcases Nat.lt_succ_iff_lt_or_eq.mp hk with hk | rfl
        · exact full k hk
        · exact ⟨p, hp, at_depth⟩
      obtain ⟨turns, bound, later⟩ := ih h.deepen full' (by omega)
      exact ⟨turns + 1, by omega, .turn some_left later⟩

theorem depths_ok_iff_atDepth {ds : List Nat} :
    depths entries = .ok ds ↔ List.Forall₂ (fun e d => AtDepth entries d e) entries ds := by
  constructor
  · intro h
    obtain ⟨rooted, rfl⟩ := depths_ok_iff.mp h
    obtain ⟨depth, listed, exact⟩ := rooted.exists_depth
    rw [listed, List.forall₂_map_right_iff, List.forall₂_same]
    exact exact
  · intro each
    have rooted : Rooted entries := by
      intro e he
      obtain ⟨k, hk, rfl⟩ := List.mem_iff_getElem.mp he
      have hk' : k < ds.length := each.length_eq ▸ hk
      exact ⟨ds[k], (each.get hk hk').1⟩
    obtain ⟨depth, listed, exact⟩ := rooted.exists_depth
    have found : List.Forall₂ (fun e d => AtDepth entries d e) entries (entries.map depth) := by
      rw [List.forall₂_map_right_iff, List.forall₂_same]
      exact exact
    have same : ds = entries.map depth :=
      List.right_unique_forall₂' (fun _ _ _ h h' => h.unique h') each found
    exact depths_ok_iff.mpr ⟨rooted, same.trans listed.symm⟩

/-- What the depth of an entry must be where the entries have these depths: nothing for an entry
without parent, and one more than the least depth of an entry with its parent's index for any
other. -/
inductive Equation (placed : List (Entry × Nat)) (e : Entry) : Nat → Prop
  | top : e.parent = none → Equation placed e 0
  | below {parent : Int} {least : Nat} : e.parent = some parent →
    IsLeast {d | ∃ p, (p, d) ∈ placed ∧ p.step.index = parent} least →
    Equation placed e (least + 1)

def Solves (entries : List Entry) (ds : List Nat) : Prop :=
  List.Forall₂ (Equation (entries.zip ds)) entries ds

theorem exists_placed {ds : List Nat} (length : entries.length = ds.length) {e : Entry}
    (he : e ∈ entries) : ∃ d, (e, d) ∈ entries.zip ds := by
  rw [← List.map_fst_zip (Nat.le_of_eq length)] at he
  obtain ⟨⟨_, d⟩, hd, rfl⟩ := List.mem_map.mp he
  exact ⟨d, hd⟩

namespace Solves

variable {ds : List Nat} {e : Entry} {d : Nat}

theorem equation (h : Solves entries ds) (he : (e, d) ∈ entries.zip ds) :
    Equation (entries.zip ds) e d := List.forall₂_zip h he

/-- A way up is found by going each time to a parent that stands least deep. -/
theorem within (h : Solves entries ds) (he : (e, d) ∈ entries.zip ds) : Within entries d e := by
  induction d generalizing e with
  | zero =>
    cases h.equation he with
    | top none => exact none
  | succ d ih =>
    cases h.equation he with
    | below parent least =>
      obtain ⟨⟨p, hp, index⟩, _⟩ := least
      exact .inr ⟨p, (List.of_mem_zip hp).1, index ▸ parent, ih hp⟩

theorem le_of_within (h : Solves entries ds) {n : Nat} (he : (e, d) ∈ entries.zip ds)
    (near : Within entries n e) : d ≤ n := by
  induction n generalizing e d with
  | zero =>
    cases h.equation he with
    | top => exact Nat.le_refl 0
    | below parent => cases parent.symm.trans near
  | succ n ih =>
    cases h.equation he with
    | top => exact Nat.zero_le _
    | below parent least =>
      rcases near with none | ⟨p, hp, parent', above⟩
      · cases parent.symm.trans none
      · obtain ⟨d', hp⟩ := exists_placed h.length_eq hp
        have index : p.step.index = _ := Option.some.inj (parent'.symm.trans parent)
        have bound := least.2 ⟨p, hp, index⟩
        have le := ih hp above
        omega

theorem atDepth (h : Solves entries ds) (he : (e, d) ∈ entries.zip ds) : AtDepth entries d e :=
  ⟨h.within he, fun _ hk closer => absurd (h.le_of_within he closer) (Nat.not_le_of_lt hk)⟩

end Solves

theorem solves_iff {ds : List Nat} :
    Solves entries ds ↔ List.Forall₂ (fun e d => AtDepth entries d e) entries ds := by
  constructor
  · intro h
    exact List.forall₂_iff_zip.mpr ⟨h.length_eq, h.atDepth⟩
  · intro exact
    obtain ⟨length, exact⟩ := List.forall₂_iff_zip.mp exact
    refine List.forall₂_iff_zip.mpr ⟨length, fun {e d} he => ?_⟩
    have at_d : AtDepth entries d e := exact he
    cases d with
    | zero => exact .top (atDepth_zero.mp at_d)
    | succ d =>
      obtain ⟨_, p, hp, parent, above⟩ := atDepth_succ.mp at_d
      refine .below parent ⟨?_, ?_⟩
      · obtain ⟨d', hp⟩ := exists_placed length hp
        exact ⟨p, (exact hp).unique above ▸ hp, rfl⟩
      · rintro d' ⟨r, hr, index⟩
        have near : Within entries (d' + 1) e :=
          .inr ⟨r, (List.of_mem_zip hr).1, index ▸ parent, (exact hr).1⟩
        exact Nat.le_of_succ_le_succ (at_d.le near)

/-- The loop ends after at most one turn for each entry. The depths are found iff every entry has a
way to the top level, and they are the only solution of the equations of shortest distances. -/
theorem depths_shortest (entries : List Entry) :
    (∃ turns ≤ entries.length, Turns 0 (opened entries) turns (depthSlots entries)) ∧
      ((∃ ds, depths entries = .ok ds) ↔ Rooted entries) ∧
      ∀ ds, depths entries = .ok ds ↔ Solves entries ds := by
  refine ⟨?_, ⟨?_, fun rooted => ?_⟩, fun ds => ?_⟩
  · obtain ⟨turns, bound, loop⟩ := spread_start.exists_turns
      (fun _ hk => absurd hk (Nat.not_lt_zero _)) (Nat.lt_succ_self entries.length)
    exact ⟨turns, by omega, loop⟩
  · rintro ⟨ds, h⟩
    exact (depths_ok_iff.mp h).1
  · exact ⟨_, depths_ok_iff.mpr ⟨rooted, rfl⟩⟩
  · rw [depths_ok_iff_atDepth, solves_iff]

example : depths [
    { step := { index := 1 } }, { step := { index := 2 }, parent := some 1 },
    { step := { index := 1 }, parent := some 2 }, { step := { index := 3 }, parent := some 1 },
    { step := { index := 2 }, parent := some 2 }] = .ok [0, 1, 2, 1, 2] := rfl

end FieldProcedure.Outline
