import FieldProcedure.Outline
import Mathlib.Data.List.Nodup
import Mathlib.Data.List.Perm.Subperm

/-! The depths of a flat list. Where indexes repeat an entry has several candidates for its parent,
and its depth is the length of a shortest way up. The rounds find these depths: after each round the
slots up to its depth are exact, and there are more rounds than there can be depths. -/
namespace FieldProcedure.Outline

variable {entries : List Entry}

/-- At most this many references to a parent lead from an entry to the top level. -/
def Within (entries : List Entry) : Nat → Entry → Prop
  | 0, e => e.parent = none
  | n + 1, e => e.parent = none ∨
      ∃ p ∈ entries, e.parent = some p.step.index ∧ Within entries n p

def AtDepth (entries : List Entry) (d : Nat) (e : Entry) : Prop :=
  Within entries d e ∧ ∀ k < d, ¬ Within entries k e

theorem Within.succ {n : Nat} {e : Entry} (h : Within entries n e) : Within entries (n + 1) e := by
  induction n generalizing e with
  | zero => exact .inl h
  | succ n ih =>
    rcases h with top | ⟨p, hp, parent, above⟩
    · exact .inl top
    · exact .inr ⟨p, hp, parent, ih above⟩

theorem Within.mono {n m : Nat} {e : Entry} (h : Within entries n e) (le : n ≤ m) :
    Within entries m e := by
  induction le with
  | refl => exact h
  | step _ ih => exact ih.succ

theorem Within.exists_atDepth {n : Nat} {e : Entry} (h : Within entries n e) :
    ∃ d ≤ n, AtDepth entries d e := by
  induction n using Nat.strongRecOn with
  | ind n ih =>
    by_cases shorter : ∃ k < n, Within entries k e
    · obtain ⟨k, hk, closer⟩ := shorter
      obtain ⟨d, hd, at_d⟩ := ih k hk closer
      exact ⟨d, by omega, at_d⟩
    · exact ⟨n, Nat.le_refl _, h, fun k hk closer => shorter ⟨k, hk, closer⟩⟩

theorem AtDepth.le {d n : Nat} {e : Entry} (h : AtDepth entries d e) (near : Within entries n e) :
    d ≤ n := Nat.not_lt.mp fun hn => h.2 n hn near

theorem AtDepth.unique {d d' : Nat} {e : Entry} (h : AtDepth entries d e)
    (h' : AtDepth entries d' e) : d = d' := Nat.le_antisymm (h.le h'.1) (h'.le h.1)

theorem atDepth_zero {e : Entry} : AtDepth entries 0 e ↔ e.parent = none :=
  ⟨fun h => h.1, fun h => ⟨h, fun _ hk => absurd hk (Nat.not_lt_zero _)⟩⟩

theorem atDepth_succ {d : Nat} {e : Entry} :
    AtDepth entries (d + 1) e ↔ ¬ Within entries d e ∧
      ∃ p ∈ entries, e.parent = some p.step.index ∧ AtDepth entries d p := by
  constructor
  · rintro ⟨top | ⟨p, hp, parent, above⟩, far⟩
    · exact absurd top (far 0 d.succ_pos)
    · have closest : ∀ k < d, ¬ Within entries k p := fun k hk closer =>
        far (k + 1) (Nat.succ_lt_succ hk) (.inr ⟨p, hp, parent, closer⟩)
      exact ⟨far d d.lt_succ_self, p, hp, parent, above, closest⟩
  · rintro ⟨far, p, hp, parent, above⟩
    exact ⟨.inr ⟨p, hp, parent, above.1⟩, fun k hk closer => far (closer.mono (by omega))⟩

theorem AtDepth.lt_of_gap {k d : Nat} {e : Entry} (gap : ∀ p ∈ entries, ¬ AtDepth entries k p)
    (he : e ∈ entries) (h : AtDepth entries d e) : d < k := by
  -- On its way up an entry meets every depth above its own.
  induction d generalizing e with
  | zero => exact Nat.pos_of_ne_zero fun hk => gap e he (hk ▸ h)
  | succ d ih =>
    obtain ⟨_, p, hp, _, above⟩ := atDepth_succ.mp h
    have hd : d < k := ih hp above
    have hne : d + 1 ≠ k := fun hk => gap e he (hk ▸ h)
    omega

structure Spread (entries : List Entry) (depth : Nat) (slots : List (Entry × Option Nat)) :
    Prop where
  order : slots.map (·.1) = entries
  exact : ∀ e slot, (e, slot) ∈ slots → ∀ d, slot = some d ↔ d ≤ depth ∧ AtDepth entries d e

namespace Spread

variable {depth : Nat} {slots : List (Entry × Option Nat)}

theorem mem (h : Spread entries depth slots) {e : Entry} {slot : Option Nat}
    (hs : (e, slot) ∈ slots) : e ∈ entries := by
  rw [← h.order]
  exact List.mem_map_of_mem hs

theorem exists_slot (h : Spread entries depth slots) {e : Entry} (he : e ∈ entries) :
    ∃ slot, (e, slot) ∈ slots := by
  rw [← h.order] at he
  obtain ⟨⟨_, slot⟩, hs, rfl⟩ := List.mem_map.mp he
  exact ⟨slot, hs⟩

theorem eq_none_iff (h : Spread entries depth slots) {e : Entry} {slot : Option Nat}
    (hs : (e, slot) ∈ slots) : slot = none ↔ ¬ Within entries depth e := by
  constructor
  · rintro rfl near
    obtain ⟨d, hd, at_d⟩ := near.exists_atDepth
    cases (h.exact e none hs d).mpr ⟨hd, at_d⟩
  · intro far
    cases slot with
    | none => rfl
    | some d =>
      obtain ⟨hd, at_d⟩ := (h.exact e _ hs d).mp rfl
      exact absurd (at_d.1.mono hd) far

theorem mem_frontierAt (h : Spread entries depth slots) {index : Int} :
    index ∈ frontierAt depth slots ↔
      ∃ p ∈ entries, p.step.index = index ∧ AtDepth entries depth p := by
  simp only [frontierAt, List.mem_map, List.mem_filter, beq_iff_eq, Prod.exists]
  constructor
  · rintro ⟨p, slot, ⟨hs, rfl⟩, rfl⟩
    exact ⟨p, h.mem hs, rfl, ((h.exact p _ hs depth).mp rfl).2⟩
  · rintro ⟨p, hp, rfl, at_depth⟩
    obtain ⟨slot, hs⟩ := h.exists_slot hp
    exact ⟨p, slot, ⟨hs, (h.exact p _ hs depth).mpr ⟨Nat.le_refl _, at_depth⟩⟩, rfl⟩

end Spread

theorem deepen_order (depth : Nat) (frontier : List Int) (slots : List (Entry × Option Nat)) :
    (deepen depth frontier slots).map (·.1) = slots.map (·.1) := by
  induction slots with
  | nil => rfl
  | cons slot rest ih =>
    obtain ⟨e, _ | d⟩ := slot <;> simp only [deepen, List.map_cons, ih]

theorem mem_deepen {depth : Nat} {frontier : List Int} {slots : List (Entry × Option Nat)}
    {e : Entry} {slot : Option Nat} (h : (e, slot) ∈ deepen depth frontier slots) :
    ∃ old, (e, old) ∈ slots ∧ ∀ d, slot = some d ↔
      old = some d ∨ old = none ∧ d = depth ∧ ∃ p ∈ frontier, e.parent = some p := by
  fun_induction deepen depth frontier slots with
  | case1 => cases h
  | case2 first d rest ih =>
    rcases List.mem_cons.mp h with here | later
    · cases here
      exact ⟨some d, List.mem_cons_self, by simp⟩
    · obtain ⟨old, hs, spec⟩ := ih later
      exact ⟨old, List.mem_cons_of_mem _ hs, spec⟩
  | case3 first rest found ih =>
    rcases List.mem_cons.mp h with here | later
    · obtain ⟨rfl, hslot⟩ : e = first ∧ slot = found := by simpa using here
      refine ⟨none, List.mem_cons_self, fun d => ?_⟩
      cases hp : e.parent with
      | none => simp [hslot, found, hp]
      | some p =>
        by_cases hf : p ∈ frontier <;> simp [hslot, found, hp, hf, eq_comm]
    · obtain ⟨old, hs, spec⟩ := ih later
      exact ⟨old, List.mem_cons_of_mem _ hs, spec⟩

namespace Spread

variable {depth : Nat} {slots : List (Entry × Option Nat)}

theorem deepen (h : Spread entries depth slots) :
    Spread entries (depth + 1) (deepen (depth + 1) (frontierAt depth slots) slots) where
  order := by rw [deepen_order, h.order]
  exact e slot hs d := by
    obtain ⟨old, hold, spec⟩ := mem_deepen hs
    -- What the round adds are the entries one reference below the frontier that have no depth yet.
    have added : (old = none ∧ d = depth + 1 ∧
        ∃ p ∈ frontierAt depth slots, e.parent = some p) ↔
        d = depth + 1 ∧ AtDepth entries d e := by
      rw [h.eq_none_iff hold]
      constructor
      · rintro ⟨far, rfl, index, hindex, parent⟩
        obtain ⟨p, hp, rfl, above⟩ := h.mem_frontierAt.mp hindex
        exact ⟨rfl, atDepth_succ.mpr ⟨far, p, hp, parent, above⟩⟩
      · rintro ⟨rfl, below⟩
        obtain ⟨far, p, hp, parent, above⟩ := atDepth_succ.mp below
        exact ⟨far, rfl, _, h.mem_frontierAt.mpr ⟨p, hp, rfl, above⟩, parent⟩
    rw [spec, h.exact e old hold, added, ← or_and_right]
    have next : d ≤ depth ∨ d = depth + 1 ↔ d ≤ depth + 1 := by omega
    rw [next]

theorem depth_le (h : Spread entries depth slots)
    (full : ∀ k < depth, ∃ e ∈ entries, AtDepth entries k e) : depth ≤ entries.length := by
  -- Each of these depths stands in some slot.
  have found : (List.range depth).map some ⊆ slots.map (·.2) := by
    intro slot hslot
    obtain ⟨k, hrange, rfl⟩ := List.mem_map.mp hslot
    have hk : k < depth := List.mem_range.mp hrange
    obtain ⟨e, he, at_k⟩ := full k hk
    obtain ⟨slot, hs⟩ := h.exists_slot he
    have exact : slot = some k := (h.exact e slot hs k).mpr ⟨Nat.le_of_lt hk, at_k⟩
    exact List.mem_map.mpr ⟨(e, slot), hs, exact⟩
  have distinct : ((List.range depth).map some).Nodup :=
    List.nodup_range.map fun _ _ same => Option.some.inj same
  have short := (List.subperm_of_subset distinct found).length_le
  rw [← h.order, List.length_map]
  simpa using short

theorem spread (h : Spread entries depth slots) {rounds : Nat}
    (full : ∀ k < depth, ∃ e ∈ entries, AtDepth entries k e)
    (enough : entries.length < rounds + depth) :
    ∃ last, Spread entries last (spread rounds depth slots) ∧
      ∀ d, ∀ e ∈ entries, AtDepth entries d e → d < last := by
  induction rounds generalizing depth slots with
  | zero =>
    have short := h.depth_le full
    omega
  | succ rounds ih =>
    rw [Outline.spread]
    split
    · next none_left =>
      have gap : ∀ p ∈ entries, ¬ AtDepth entries depth p := fun p hp at_depth => by
        have frontier := h.mem_frontierAt.mpr ⟨p, hp, rfl, at_depth⟩
        rw [none_left] at frontier
        cases frontier
      exact ⟨depth, h, fun d e he at_d => at_d.lt_of_gap gap he⟩
    · next some_left =>
      obtain ⟨index, hindex⟩ := List.exists_mem_of_ne_nil _ some_left
      obtain ⟨p, hp, _, at_depth⟩ := h.mem_frontierAt.mp hindex
      refine ih h.deepen (fun k hk => ?_) (by omega)
      rcases Nat.lt_succ_iff_lt_or_eq.mp hk with hk | rfl
      · exact full k hk
      · exact ⟨p, hp, at_depth⟩

end Spread

theorem spread_start : Spread entries 0
    (entries.map fun e => (e, if e.parent.isNone then some 0 else none)) where
  order := by
    rw [List.map_map]
    exact List.map_id _
  exact e slot hs d := by
    have start : slot = if e.parent.isNone then some 0 else none := by
      obtain ⟨_, _, same⟩ := List.mem_map.mp hs
      cases same
      rfl
    have top : d ≤ 0 ∧ AtDepth entries d e ↔ d = 0 ∧ e.parent = none := by
      rw [Nat.le_zero]
      constructor
      · rintro ⟨rfl, at_top⟩
        exact ⟨rfl, atDepth_zero.mp at_top⟩
      · rintro ⟨rfl, parent⟩
        exact ⟨rfl, atDepth_zero.mpr parent⟩
    rw [start, top]
    cases e.parent <;> simp [eq_comm]

theorem depthSlots_spread (entries : List Entry) :
    ∃ last, Spread entries last (depthSlots entries) ∧
      ∀ d, ∀ e ∈ entries, AtDepth entries d e → d < last :=
  spread_start.spread (fun _ hk => absurd hk (Nat.not_lt_zero _)) (Nat.lt_succ_self _)

theorem depthSlots_exact {e : Entry} {slot : Option Nat} (hs : (e, slot) ∈ depthSlots entries)
    (d : Nat) : slot = some d ↔ AtDepth entries d e := by
  obtain ⟨last, spread, deepest⟩ := depthSlots_spread entries
  rw [spread.exact e slot hs d]
  constructor
  · exact fun at_d => at_d.2
  · exact fun at_d => ⟨Nat.le_of_lt (deepest d e (spread.mem hs) at_d), at_d⟩

def Rooted (entries : List Entry) : Prop := ∀ e ∈ entries, ∃ n, Within entries n e

theorem stranded_eq_nil : stranded entries = [] ↔ Rooted entries := by
  obtain ⟨last, spread, _⟩ := depthSlots_spread entries
  unfold stranded
  rw [List.filterMap_eq_nil_iff]
  constructor
  · intro reached e he
    obtain ⟨slot, hs⟩ := spread.exists_slot he
    have here := reached _ hs
    cases slot with
    | some d => exact ⟨d, ((depthSlots_exact hs d).mp rfl).1⟩
    | none =>
      cases parent : e.parent with
      | none => exact ⟨0, parent⟩
      | some p => simp [parent] at here
  · rintro rooted ⟨e, slot⟩ hs
    obtain ⟨n, near⟩ := rooted e (spread.mem hs)
    obtain ⟨d, _, at_d⟩ := near.exists_atDepth
    rw [(depthSlots_exact hs d).mpr at_d]

theorem depths_ok_iff {ds : List Nat} : depths entries = .ok ds ↔
    Rooted entries ∧ ds = (depthSlots entries).map fun slot => slot.2.getD 0 := by
  constructor
  · intro h
    rw [depths] at h
    split at h
    · cases h
    · cases h
    · next none_left =>
      cases h
      exact ⟨stranded_eq_nil.mp none_left, rfl⟩
  · rintro ⟨rooted, rfl⟩
    unfold depths
    rw [stranded_eq_nil.mpr rooted]
    rfl

theorem Rooted.exists_depth (h : Rooted entries) : ∃ depth : Entry → Nat,
    (depthSlots entries).map (fun slot => slot.2.getD 0) = entries.map depth ∧
      ∀ e ∈ entries, AtDepth entries (depth e) e := by
  have exists_depth : ∀ e, ∃ d, e ∈ entries → AtDepth entries d e := by
    intro e
    by_cases he : e ∈ entries
    · obtain ⟨n, near⟩ := h e he
      obtain ⟨d, _, at_d⟩ := near.exists_atDepth
      exact ⟨d, fun _ => at_d⟩
    · exact ⟨0, fun he' => absurd he' he⟩
  choose depth at_depth using exists_depth
  refine ⟨depth, ?_, at_depth⟩
  obtain ⟨_, spread, _⟩ := depthSlots_spread entries
  conv_rhs => rw [← spread.order, List.map_map]
  refine List.map_congr_left fun slot hs => ?_
  have exact : slot.2 = some (depth slot.1) :=
    (depthSlots_exact hs _).mpr (at_depth _ (spread.mem hs))
  rw [exact]
  rfl

end FieldProcedure.Outline
