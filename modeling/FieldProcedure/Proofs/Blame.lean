import FieldProcedure.Proofs.Tables
import Mathlib.Data.Fintype.Pigeonhole
import Mathlib.Data.Set.Finite.Basic
import Mathlib.Logic.Function.Iterate

/-! Which flat lists are refused, and which entry is blamed. A repeated index comes before a parent
that nobody is, and that before a chain of parents that never ends; among the entries at fault the
first is named. What the rounds leave without a depth is exactly what has no way to the top level,
and if all its parents exist then that way comes back to where it was. -/
namespace FieldProcedure

def First {α : Type} (P : α → Prop) (l : List α) (a : α) : Prop :=
  ∃ before after, l = before ++ a :: after ∧ P a ∧ ∀ b ∈ before, ¬ P b

theorem exists_first {α : Type} {P : α → Prop} {l : List α} (h : ∃ a ∈ l, P a) :
    ∃ a, First P l a := by
  induction l with
  | nil =>
    obtain ⟨_, hmem, _⟩ := h
    cases hmem
  | cons b rest ih =>
    by_cases hb : P b
    · exact ⟨b, [], rest, rfl, hb, by simp⟩
    · obtain ⟨a, hmem, ha⟩ := h
      have other : a ≠ b := by
        rintro rfl
        exact hb ha
      have later : a ∈ rest := List.mem_of_ne_of_mem other hmem
      obtain ⟨a', before, after, rfl, ha', earlier⟩ := ih ⟨a, later, ha⟩
      refine ⟨a', b :: before, after, rfl, ha', fun c hc => ?_⟩
      rcases List.mem_cons.mp hc with rfl | hc
      · exact hb
      · exact earlier c hc

namespace Outline

variable {entries : List Entry} {e : Entry} {p : Int} {fault : CompileError}

def Orphan (entries : List Entry) (e : Entry) : Prop :=
  ∃ p, e.parent = some p ∧ p ∉ indexes entries

def Lost (entries : List Entry) (e : Entry) : Prop := ∀ n, ¬ Within entries n e

theorem Orphan.lost (h : Orphan entries e) : Lost entries e := by
  obtain ⟨p, parent, unknown⟩ := h
  rintro (_ | n) near
  · cases parent.symm.trans near
  · rcases near with top | ⟨r, hr, parent', _⟩
    · cases parent.symm.trans top
    · have same : p = r.step.index := Option.some.inj (parent.symm.trans parent')
      exact unknown (same ▸ List.mem_map_of_mem hr)

theorem Lost.exists_parent (h : Lost entries e) : ∃ p, e.parent = some p :=
  Option.ne_none_iff_exists'.mp (h 0)

theorem lost_iff_of_slot {slot : Option Nat} (hs : (e, slot) ∈ depthSlots entries) :
    Lost entries e ↔ slot = none := by
  constructor
  · intro lost
    refine Option.eq_none_iff_forall_ne_some.mpr fun d hd => ?_
    exact lost d ((depthSlots_exact hs d).mp hd).1
  · rintro rfl n near
    obtain ⟨d, _, at_d⟩ := near.exists_atDepth
    cases (depthSlots_exact hs d).mpr at_d

open Classical in
noncomputable def report? (entries : List Entry) (e : Entry) : Option (Int × Int) :=
  if Lost entries e then e.parent.map (e.step.index, ·) else none

theorem report?_eq_some {pair : Int × Int} : report? entries e = some pair ↔
    Lost entries e ∧ e.step.index = pair.1 ∧ e.parent = some pair.2 := by
  unfold report?
  split
  · next lost =>
    obtain ⟨p, parent⟩ := lost.exists_parent
    simp [parent, lost, Prod.ext_iff]
  · next reached => simp [reached]

theorem stranded_eq (entries : List Entry) :
    stranded entries = entries.filterMap (report? entries) := by
  obtain ⟨_, spread, _⟩ := depthSlots_spread entries
  calc stranded entries
      = (depthSlots entries).filterMap (report? entries ∘ (·.1)) := by
        refine List.filterMap_congr fun slot hs => ?_
        obtain ⟨e, d⟩ := slot
        rw [Function.comp_apply, report?, lost_iff_of_slot hs]
        cases d with
        | some d => simp
        | none => cases parent : e.parent <;> simp [parent]
    _ = ((depthSlots entries).map (·.1)).filterMap (report? entries) := List.filterMap_map.symm
    _ = entries.filterMap (report? entries) := by rw [spread.order]

theorem stranded_split {before after : List Entry} (split : entries = before ++ e :: after)
    (lost : Lost entries e) (parent : e.parent = some p) :
    stranded entries = before.filterMap (report? entries) ++
      (e.step.index, p) :: after.filterMap (report? entries) := by
  have reported : report? entries e = some (e.step.index, p) :=
    report?_eq_some.mpr ⟨lost, rfl, parent⟩
  calc stranded entries
      = (before ++ e :: after).filterMap (report? entries) := by rw [← split, stranded_eq]
    _ = _ := by rw [List.filterMap_append, List.filterMap_cons_some reported]

theorem depths_of_orphan (h : First (Orphan entries) entries e) (parent : e.parent = some p) :
    depths entries = .error (.unresolvedParent e.step.index p) := by
  obtain ⟨before, after, split, orphan, earlier⟩ := h
  have lost := orphan.lost
  obtain ⟨q, parent', unknown⟩ := orphan
  obtain rfl : q = p := Option.some.inj (parent'.symm.trans parent)
  have found : (stranded entries).find? (fun pair => pair.2 ∉ indexes entries) =
      some (e.step.index, q) := by
    refine List.find?_eq_some_iff_append.mpr ⟨by simpa using unknown, _, _,
      stranded_split split lost parent, fun pair hpair => ?_⟩
    obtain ⟨b, hb, reported⟩ := List.mem_filterMap.mp hpair
    obtain ⟨_, _, known⟩ := report?_eq_some.mp reported
    by_contra unknown
    exact earlier b hb ⟨pair.2, known, by simpa using unknown⟩
  simp only [depths, found]

theorem depths_of_lost (known : ∀ r ∈ entries, ¬ Orphan entries r)
    (h : First (Lost entries) entries e) (parent : e.parent = some p) :
    depths entries = .error (.parentCycle e.step.index p) := by
  obtain ⟨before, after, split, lost, earlier⟩ := h
  have none_before : before.filterMap (report? entries) = [] := by
    refine List.filterMap_eq_nil_iff.mpr fun b hb => ?_
    exact if_neg (earlier b hb)
  have not_found : (stranded entries).find? (fun pair => pair.2 ∉ indexes entries) = none := by
    refine List.find?_eq_none.mpr fun pair hpair => ?_
    rw [stranded_eq] at hpair
    obtain ⟨r, hr, reported⟩ := List.mem_filterMap.mp hpair
    obtain ⟨_, _, parent⟩ := report?_eq_some.mp reported
    by_contra unknown
    exact known r hr ⟨pair.2, parent, by simpa using unknown⟩
  have first := stranded_split split lost parent
  rw [none_before, List.nil_append] at first
  rw [first] at not_found
  simp only [depths, first, not_found]

/-- Whom a flat list blames, and for what: an index whose second entry comes first of all repeats;
if none repeats, the first entry whose parent is nobody; if there is none of these either, the first
entry without a way to the top level. -/
inductive Blamed (entries : List Entry) : CompileError → Prop
  | repeated {before after : List Int} {n : Int} : indexes entries = before ++ n :: after →
    n ∈ before → before.Nodup → Blamed entries (.duplicateIndex n)
  | orphan {e : Entry} {p : Int} : (indexes entries).Nodup → First (Orphan entries) entries e →
    e.parent = some p → Blamed entries (.unresolvedParent e.step.index p)
  | lost {e : Entry} {p : Int} : (indexes entries).Nodup → (∀ r ∈ entries, ¬ Orphan entries r) →
    First (Lost entries) entries e → e.parent = some p →
    Blamed entries (.parentCycle e.step.index p)

theorem Blamed.forest_eq (h : Blamed entries fault) : forest entries = .error fault := by
  cases h with
  | repeated split again distinct =>
    unfold forest
    rw [split, firstRepeat?_append distinct (by simp) (.inr again)]
  | orphan distinct first parent =>
    unfold forest
    rw [firstRepeat?_eq_none_iff_nodup.mpr distinct, depths_of_orphan first parent]
    rfl
  | lost distinct known first parent =>
    unfold forest
    rw [firstRepeat?_eq_none_iff_nodup.mpr distinct, depths_of_lost known first parent]
    rfl

theorem blamed_or_rooted (entries : List Entry) :
    (∃ fault, Blamed entries fault) ∨ (indexes entries).Nodup ∧ Rooted entries := by
  cases twice : firstRepeat? [] (indexes entries) with
  | some n =>
    obtain ⟨before, after, split, again, distinct, _⟩ := firstRepeat?_eq_some twice
    exact .inl ⟨_, .repeated split (again.resolve_left List.not_mem_nil) distinct⟩
  | none =>
    have distinct := firstRepeat?_eq_none_iff_nodup.mp twice
    by_cases orphans : ∃ e ∈ entries, Orphan entries e
    · obtain ⟨e, first⟩ := exists_first orphans
      obtain ⟨_, _, _, ⟨p, parent, _⟩, _⟩ := id first
      exact .inl ⟨_, .orphan distinct first parent⟩
    · by_cases astray : ∃ e ∈ entries, Lost entries e
      · obtain ⟨e, first⟩ := exists_first astray
        obtain ⟨_, _, _, lost, _⟩ := id first
        obtain ⟨p, parent⟩ := lost.exists_parent
        exact .inl ⟨_, .lost distinct (fun r hr orphan => orphans ⟨r, hr, orphan⟩) first parent⟩
      · refine .inr ⟨distinct, fun e he => ?_⟩
        by_contra unreached
        exact astray ⟨e, he, not_exists.mp unreached⟩

theorem Lost.exists_above (lost : Lost entries e) (known : ¬ Orphan entries e) :
    ∃ r, Lost entries r ∧ Above entries r e := by
  obtain ⟨p, parent⟩ := lost.exists_parent
  have member : p ∈ indexes entries := by
    by_contra unknown
    exact known ⟨p, parent, unknown⟩
  obtain ⟨r, hr, rfl⟩ := List.mem_map.mp member
  exact ⟨r, fun n near => lost (n + 1) (.inr ⟨r, hr, parent, near⟩), hr, parent⟩

theorem Lost.exists_revisit (known : ∀ r ∈ entries, ¬ Orphan entries r) (he : e ∈ entries)
    (lost : Lost entries e) : ∃ a, Relation.ReflTransGen (Above entries) a e ∧
      Relation.TransGen (Above entries) a a := by
  have up : ∀ r : {r // r ∈ entries ∧ Lost entries r},
      ∃ q : {q // q ∈ entries ∧ Lost entries q}, Above entries q r := by
    rintro ⟨r, hr, lost⟩
    obtain ⟨q, lost', above⟩ := lost.exists_above (known r hr)
    exact ⟨⟨q, above.1, lost'⟩, above⟩
  choose next above using up
  have climbs : ∀ k r, Relation.ReflTransGen (Above entries) (next^[k] r) r := by
    intro k r
    induction k with
    | zero => exact .refl
    | succ k ih =>
      rw [Function.iterate_succ_apply']
      exact .head (above _) ih
  have : Finite {r // r ∈ entries ∧ Lost entries r} :=
    (List.finite_toSet entries).subset fun _ hr => hr.1
  let start : {r // r ∈ entries ∧ Lost entries r} := ⟨e, he, lost⟩
  -- There are only so many lost entries, so the way up repeats itself.
  obtain ⟨m, n, lt, same⟩ : ∃ m n, m < n ∧ next^[m] start = next^[n] start := by
    obtain ⟨m, n, apart, same⟩ := Finite.exists_ne_map_eq_of_infinite fun k => next^[k] start
    rcases Nat.lt_or_gt_of_ne apart with lt | lt
    · exact ⟨m, n, lt, same⟩
    · exact ⟨n, m, lt, same.symm⟩
  obtain ⟨k, rfl⟩ : ∃ k, n = k + 1 + m := ⟨n - m - 1, by omega⟩
  refine ⟨next^[m] start, climbs m start, ?_⟩
  have later : Relation.TransGen (Above entries) (next^[k + 1] (next^[m] start))
      (next^[m] start) := by
    rw [Function.iterate_succ_apply']
    exact .head' (above _) (climbs k _)
  rwa [← Function.iterate_add_apply, ← same] at later

/-- A list is refused iff an index repeats or an entry has no way to the top level. The refusal
blames the first at fault, and a way that is reported as endless comes back to where it was. In the
trees of a list that is not refused, nothing but the entries without parent is at the top level. -/
theorem forest_blames_first (entries : List Entry) :
    ((∃ trees, forest entries = .ok trees) ↔ (indexes entries).Nodup ∧ Rooted entries) ∧
    (∀ fault, forest entries = .error fault ↔ Blamed entries fault) ∧
    (∀ index parent, forest entries = .error (.parentCycle index parent) →
      ∃ e ∈ entries, e.step.index = index ∧ e.parent = some parent ∧
        ∃ a, Relation.ReflTransGen (Above entries) a e ∧
          Relation.TransGen (Above entries) a a) ∧
    ∀ trees, forest entries = .ok trees →
      trees.map (·.index) = indexes (entries.filter (·.parent.isNone)) := by
  have blamed : ∀ fault, forest entries = .error fault ↔ Blamed entries fault := by
    refine fun fault => ⟨fun refused => ?_, Blamed.forest_eq⟩
    rcases blamed_or_rooted entries with ⟨other, h⟩ | ⟨distinct, rooted⟩
    · cases refused.symm.trans h.forest_eq
      exact h
    · obtain ⟨_, _, ok, _⟩ := forest_accepts distinct rooted
      cases refused.symm.trans ok
  refine ⟨⟨?_, ?_⟩, blamed, fun index parent refused => ?_, fun trees ok => ?_⟩
  · rintro ⟨trees, ok⟩
    exact forest_ok ok
  · rintro ⟨distinct, rooted⟩
    obtain ⟨trees, _, ok, _⟩ := forest_accepts distinct rooted
    exact ⟨trees, ok⟩
  · cases (blamed _).mp refused with
    | @lost e _ _ known first names =>
      obtain ⟨before, after, split, lost, _⟩ := first
      have he : e ∈ entries := by
        rw [split]
        exact List.mem_append_right _ List.mem_cons_self
      exact ⟨e, he, rfl, names, lost.exists_revisit known he⟩
  · obtain ⟨grow, rebuilt⟩ := forest_rebuilt ok
    rw [rebuilt.top, List.map_map, indexes]
    refine List.map_congr_left fun e he => ?_
    have grown : grow e = _ := rebuilt.grown e (List.mem_of_mem_filter he)
    rw [Function.comp_apply, grown]

def boilerRows : List Entry := [
  { step := { index := 1, title := "Boiler" } },
  { step := { index := 4, title := "Gauge" }, parent := some 2 },
  { step := { index := 2, title := "Valve" }, parent := some 3 },
  { step := { index := 3, title := "Pipe" }, parent := some 2 }]

theorem boilerRows_blamed : forest boilerRows = .error (.parentCycle 4 2) ∧
    ∃ e ∈ boilerRows, e.step.index = 4 ∧ e.parent = some 2 ∧
      ∃ a, Relation.ReflTransGen (Above boilerRows) a e ∧
        Relation.TransGen (Above boilerRows) a a := by
  have refused : forest boilerRows = .error (.parentCycle 4 2) := rfl
  exact ⟨refused, (forest_blames_first boilerRows).2.2.1 4 2 refused⟩

end Outline
end FieldProcedure
