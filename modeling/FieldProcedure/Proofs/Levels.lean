import FieldProcedure.Step.Basic
import Mathlib.Data.List.Nodup
import Mathlib.Data.List.Perm.Subperm

/-! The levels of a tree of steps. A level is a list of siblings; inside it lie the levels of its
groups and what is inside those. The children of a step of another kind are no level. Repeats in a
list are located as well: the value that is reported is the first to stand after its equal. -/
namespace FieldProcedure

theorem firstRepeat?_eq_none {seen l : List Int} :
    firstRepeat? seen l = none ↔ l.Nodup ∧ ∀ n ∈ l, n ∉ seen := by
  induction l generalizing seen with
  | nil => simp [firstRepeat?]
  | cons m rest ih =>
    by_cases hm : m ∈ seen
    · simp [firstRepeat?, hm]
    · simp only [firstRepeat?, hm, if_false, ih, List.nodup_cons, List.mem_cons, forall_eq_or_imp,
        not_or, not_false_eq_true, true_and]
      constructor
      · rintro ⟨distinct, new⟩
        exact ⟨⟨fun again => (new m again).1 rfl, distinct⟩, fun n hn => (new n hn).2⟩
      · rintro ⟨⟨single, distinct⟩, new⟩
        exact ⟨distinct, fun n hn => ⟨fun same => single (same ▸ hn), new n hn⟩⟩

theorem firstRepeat?_eq_none_iff_nodup {l : List Int} : firstRepeat? [] l = none ↔ l.Nodup := by
  simp [firstRepeat?_eq_none]

theorem firstRepeat?_eq_some {seen l : List Int} {n : Int} (h : firstRepeat? seen l = some n) :
    ∃ before after, l = before ++ n :: after ∧ (n ∈ seen ∨ n ∈ before) ∧
      before.Nodup ∧ ∀ m ∈ before, m ∉ seen := by
  induction l generalizing seen with
  | nil => cases h
  | cons m rest ih =>
    rw [firstRepeat?] at h
    split at h
    · next hm =>
      cases h
      exact ⟨[], rest, rfl, .inl hm, List.nodup_nil, by simp⟩
    · next hm =>
      obtain ⟨before, after, rfl, hn, distinct, new⟩ := ih h
      refine ⟨m :: before, after, rfl, ?_, ?_, ?_⟩
      · rcases hn with hn | hn
        · rcases List.mem_cons.mp hn with rfl | hn
          · exact .inr List.mem_cons_self
          · exact .inl hn
        · exact .inr (List.mem_cons_of_mem _ hn)
      · exact List.nodup_cons.mpr ⟨fun again => new m again List.mem_cons_self, distinct⟩
      · intro k hk
        rcases List.mem_cons.mp hk with rfl | hk
        · exact hm
        · exact fun used => new k hk (List.mem_cons_of_mem _ used)

theorem firstRepeat?_append {seen before after : List Int} {n : Int} (distinct : before.Nodup)
    (new : ∀ m ∈ before, m ∉ seen) (again : n ∈ seen ∨ n ∈ before) :
    firstRepeat? seen (before ++ n :: after) = some n := by
  induction before generalizing seen with
  | nil => exact if_pos (again.resolve_right List.not_mem_nil)
  | cons m rest ih =>
    obtain ⟨single, distinct⟩ := List.nodup_cons.mp distinct
    have unseen : m ∉ seen := new m List.mem_cons_self
    rw [List.cons_append, firstRepeat?, if_neg unseen]
    refine ih distinct (fun k hk => ?_) ?_
    · rintro used
      rcases List.mem_cons.mp used with rfl | used
      · exact single hk
      · exact new k (List.mem_cons_of_mem _ hk) used
    · simp only [List.mem_cons] at again ⊢
      tauto

theorem two_le_count_of_firstRepeat? {l : List Int} {n : Int} (h : firstRepeat? [] l = some n) :
    2 ≤ l.count n := by
  obtain ⟨before, after, rfl, hn, _⟩ := firstRepeat?_eq_some h
  have earlier : 0 < before.count n := List.count_pos_iff.mpr (hn.resolve_left List.not_mem_nil)
  rw [List.count_append, List.count_cons_self]
  omega

namespace Step

theorem levelInduction {P : List Step → Prop}
    (h : ∀ level, (∀ s ∈ level, P s.children) → P level) (level : List Step) : P level :=
  h level fun s _ => levelInduction h s.children
termination_by sizeOf level
decreasing_by
  have inside : sizeOf s < sizeOf level := List.sizeOf_lt_of_mem ‹_›
  have below : sizeOf s.children < sizeOf s := by
    cases s
    simp only [Step.mk.sizeOf_spec]
    omega
  omega

mutual
def levels : Step → List (List Step)
  | ⟨_, _, _, _, _, kind, _, _, _, children⟩ =>
    if kind = .group then children :: levelsInside children else []
def levelsInside : List Step → List (List Step)
  | [] => []
  | s :: rest => s.levels ++ levelsInside rest
end

def levelsFrom (level : List Step) : List (List Step) := level :: levelsInside level

theorem levels_eq (s : Step) :
    s.levels = if s.kind = .group then levelsFrom s.children else [] := by
  cases s
  rfl

theorem levelsInside_eq (level : List Step) : levelsInside level = level.flatMap levels := by
  induction level with
  | nil => rfl
  | cons s rest ih => rw [levelsInside, ih, List.flatMap_cons]

theorem mem_levelsFrom_of_group {level inner : List Step} {s : Step} (hs : s ∈ level)
    (hgroup : s.kind = .group) (h : inner ∈ levelsFrom s.children) : inner ∈ levelsFrom level := by
  rw [levelsFrom, levelsInside_eq]
  refine List.mem_cons_of_mem _ (List.mem_flatMap.mpr ⟨s, hs, ?_⟩)
  rwa [levels_eq, if_pos hgroup]

theorem mem_levelsFrom {level inner : List Step} : inner ∈ levelsFrom level ↔
    inner = level ∨ ∃ s ∈ level, s.kind = .group ∧ inner ∈ levelsFrom s.children := by
  constructor
  · rw [levelsFrom, List.mem_cons, levelsInside_eq]
    refine Or.imp_right fun below => ?_
    obtain ⟨s, hs, hinner⟩ := List.mem_flatMap.mp below
    rw [levels_eq] at hinner
    split at hinner
    · next hgroup => exact ⟨s, hs, hgroup, hinner⟩
    · cases hinner
  · rintro (rfl | ⟨s, hs, hgroup, hinner⟩)
    · exact List.mem_cons_self
    · exact mem_levelsFrom_of_group hs hgroup hinner

theorem children_mem_levelsFrom {top level : List Step} {s : Step} (hl : level ∈ levelsFrom top)
    (hs : s ∈ level) (hgroup : s.kind = .group) : s.children ∈ levelsFrom top := by
  induction top using levelInduction with
  | h top ih =>
    rcases mem_levelsFrom.mp hl with rfl | ⟨t, ht, htgroup, below⟩
    · exact mem_levelsFrom_of_group hs hgroup List.mem_cons_self
    · exact mem_levelsFrom_of_group ht htgroup (ih t ht below)

mutual
def subtrees : Step → List Step
  | s@⟨_, _, _, _, _, _, _, _, _, children⟩ => s :: subtreesAll children
def subtreesAll : List Step → List Step
  | [] => []
  | s :: rest => s.subtrees ++ subtreesAll rest
end

theorem subtrees_eq (s : Step) : s.subtrees = s :: subtreesAll s.children := by
  cases s
  rfl

theorem subtreesAll_eq (trees : List Step) : subtreesAll trees = trees.flatMap subtrees := by
  induction trees with
  | nil => rfl
  | cons s rest ih => rw [subtreesAll, ih, List.flatMap_cons]

mutual
def reached : Step → List Step
  | s@⟨_, _, _, _, _, kind, _, _, _, children⟩ =>
    s :: if kind = .group then reachedAll children else []
def reachedAll : List Step → List Step
  | [] => []
  | s :: rest => s.reached ++ reachedAll rest
end

theorem reached_eq (s : Step) :
    s.reached = s :: if s.kind = .group then reachedAll s.children else [] := by
  cases s
  rfl

theorem flatten_levelsFrom_subperm (level : List Step) :
    (levelsFrom level).flatten.Subperm (subtreesAll level) := by
  induction level using levelInduction with
  | h level ih =>
    have inside : ∀ steps : List Step, steps ⊆ level →
        (levelsInside steps).flatten.Subperm (steps.flatMap fun s => subtreesAll s.children) := by
      intro steps within
      induction steps with
      | nil => exact List.nil_subperm
      | cons s rest ih' =>
        obtain ⟨hs, within⟩ := List.cons_subset.mp within
        rw [levelsInside, List.flatten_append, List.flatMap_cons, levels_eq]
        refine List.Subperm.append ?_ (ih' within)
        split
        · exact ih s hs
        · exact List.nil_subperm
    have trees : subtreesAll level = level.flatMap fun s => [s] ++ subtreesAll s.children := by
      rw [subtreesAll_eq]
      exact List.flatMap_congr fun s _ => subtrees_eq s
    have split := List.flatMap_append_perm level (fun s => [s]) fun s => subtreesAll s.children
    rw [← trees, List.flatMap_singleton'] at split
    rw [levelsFrom, List.flatten_cons]
    exact (List.Subperm.append (List.Subperm.refl level) (inside level (List.Subset.refl _))).trans
      split.subperm

def suppliedFrom (level : List Step) : List String :=
  (levelsFrom level).flatten.filterMap suppliedId?

def suppliedInside (s : Step) : List String := s.levels.flatten.filterMap suppliedId?

theorem suppliedFrom_eq (level : List Step) :
    suppliedFrom level = level.filterMap suppliedId? ++ level.flatMap suppliedInside := by
  simp only [suppliedFrom, levelsFrom, List.flatten_cons, List.filterMap_append, levelsInside_eq,
    List.append_cancel_left_eq]
  induction level with
  | nil => rfl
  | cons s rest ih =>
    rw [List.flatMap_cons, List.flatten_append, List.filterMap_append, ih, List.flatMap_cons]
    rfl

theorem suppliedInside_eq (s : Step) :
    s.suppliedInside = if s.kind = .group then suppliedFrom s.children else [] := by
  unfold suppliedInside
  rw [levels_eq]
  split <;> rfl

end Step
end FieldProcedure
