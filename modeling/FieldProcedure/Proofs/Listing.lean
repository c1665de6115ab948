import FieldProcedure.Proofs.Forest

/-! Trees and the flat lists that describe them. A forest with distinct indexes comes back from its
entries in whatever order they stand, as long as siblings keep theirs. -/
namespace FieldProcedure.Step

def entry (parent : Option Int) (s : Step) : Entry := ⟨{ s with children := [] }, parent⟩

mutual
def listed (parent : Option Int) : Step → List Entry
  | s@⟨_, index, _, _, _, _, _, _, _, children⟩ =>
    s.entry parent :: listedAll (some index) children
def listedAll (parent : Option Int) : List Step → List Entry
  | [] => []
  | s :: rest => s.listed parent ++ listedAll parent rest
end

theorem listed_eq (parent : Option Int) (s : Step) :
    s.listed parent = s.entry parent :: listedAll (some s.index) s.children := by
  cases s
  rfl

theorem listedAll_eq (parent : Option Int) (level : List Step) :
    listedAll parent level = level.flatMap (listed parent) := by
  induction level with
  | nil => rfl
  | cons s rest ih => rw [listedAll, ih, List.flatMap_cons]

theorem mem_listedAll {parent : Option Int} {level : List Step} {e : Entry} :
    e ∈ listedAll parent level ↔
      ∃ s ∈ level, e = s.entry parent ∨ e ∈ listedAll (some s.index) s.children := by
  simp only [listedAll_eq parent level, List.mem_flatMap, listed_eq, List.mem_cons]

theorem mem_subtreesAll {level : List Step} {s : Step} :
    s ∈ subtreesAll level ↔ ∃ t ∈ level, s = t ∨ s ∈ subtreesAll t.children := by
  simp only [subtreesAll_eq level, List.mem_flatMap, subtrees_eq, List.mem_cons]

theorem indexes_listedAll (parent : Option Int) (level : List Step) :
    Outline.indexes (listedAll parent level) = (subtreesAll level).map (·.index) := by
  induction level using levelInduction generalizing parent with
  | h level ih =>
    rw [Outline.indexes, listedAll_eq, subtreesAll_eq, List.map_flatMap, List.map_flatMap]
    refine List.flatMap_congr fun s hs => ?_
    rw [listed_eq, subtrees_eq, List.map_cons, List.map_cons]
    exact congrArg (s.index :: ·) (ih s hs (some s.index))

theorem parent_of_mem_listedAll {parent : Option Int} {level : List Step} {e : Entry}
    (he : e ∈ listedAll parent level) :
    e.parent = parent ∨ ∃ s ∈ subtreesAll level, e.parent = some s.index := by
  induction level using levelInduction generalizing parent with
  | h level ih =>
    obtain ⟨s, hs, rfl | below⟩ := mem_listedAll.mp he
    · exact .inl rfl
    · rcases ih s hs below with here | ⟨t, ht, parent⟩
      · exact .inr ⟨s, mem_subtreesAll.mpr ⟨s, hs, .inl rfl⟩, here⟩
      · exact .inr ⟨t, mem_subtreesAll.mpr ⟨s, hs, .inr ht⟩, parent⟩

theorem filter_listedAll_eq_nil {parent other : Option Int} {level : List Step}
    (outer : other ≠ parent) (inner : ∀ s ∈ subtreesAll level, other ≠ some s.index) :
    (listedAll parent level).filter (fun e => e.parent == other) = [] := by
  refine List.filter_eq_nil_iff.mpr fun e he names => ?_
  have names : e.parent = other := by simpa using names
  rcases parent_of_mem_listedAll he with here | ⟨s, hs, here⟩
  · exact outer (names.symm.trans here)
  · exact inner s hs (names.symm.trans here)

theorem filter_listedAll_self {parent : Option Int} {level : List Step}
    (outer : ∀ s ∈ subtreesAll level, parent ≠ some s.index) :
    (listedAll parent level).filter (fun e => e.parent == parent) = level.map (entry parent) := by
  induction level with
  | nil => rfl
  | cons s rest ih =>
    have own : parent ≠ some s.index := outer s (mem_subtreesAll.mpr ⟨s, by simp⟩)
    have below : ∀ t ∈ subtreesAll s.children, parent ≠ some t.index := fun t ht =>
      outer t (mem_subtreesAll.mpr ⟨s, List.mem_cons_self, .inr ht⟩)
    have later : ∀ t ∈ subtreesAll rest, parent ≠ some t.index := fun t ht => by
      obtain ⟨u, hu, inside⟩ := mem_subtreesAll.mp ht
      exact outer t (mem_subtreesAll.mpr ⟨u, List.mem_cons_of_mem _ hu, inside⟩)
    have self : (s.entry parent).parent == parent := by simp [entry]
    rw [listedAll, listed_eq, List.filter_append, List.filter_cons, if_pos self,
      filter_listedAll_eq_nil own below, ih later]
    rfl

theorem filter_listedAll {parent : Option Int} {level : List Step} {s : Step}
    (distinct : ((subtreesAll level).map (·.index)).Nodup) (outer : parent ≠ some s.index)
    (hs : s ∈ subtreesAll level) :
    (listedAll parent level).filter (fun e => e.parent == some s.index) =
      s.children.map (entry (some s.index)) := by
  induction level using levelInduction generalizing parent with
  | h level ih =>
    obtain ⟨t, ht, inside⟩ := mem_subtreesAll.mp hs
    obtain ⟨before, after, rfl⟩ := List.append_of_mem ht
    have ht' : s ∈ t.subtrees := by
      rw [subtrees_eq]
      exact List.mem_cons.mpr inside
    have trees : subtreesAll (before ++ t :: after) =
        subtreesAll before ++ (t.subtrees ++ subtreesAll after) := by
      simp only [subtreesAll_eq, List.flatMap_append, List.flatMap_cons]
    have entries : listedAll parent (before ++ t :: after) =
        listedAll parent before ++ (t.listed parent ++ listedAll parent after) := by
      simp only [listedAll_eq parent, List.flatMap_append, List.flatMap_cons]
    rw [trees, List.map_append, List.map_append, List.nodup_append, List.nodup_append] at distinct
    obtain ⟨_, ⟨single, _, apart_after⟩, apart_before⟩ := distinct
    -- The step lies in `t`, so none of the other trees has its index.
    have none_before : (listedAll parent before).filter (fun e => e.parent == some s.index) = [] :=
      filter_listedAll_eq_nil outer.symm fun u hu same =>
        apart_before _ (List.mem_map_of_mem hu) _
          (List.mem_append_left _ (List.mem_map_of_mem ht')) (Option.some.inj same).symm
    have none_after : (listedAll parent after).filter (fun e => e.parent == some s.index) = [] :=
      filter_listedAll_eq_nil outer.symm fun u hu same =>
        apart_after _ (List.mem_map_of_mem ht') _ (List.mem_map_of_mem hu) (Option.some.inj same)
    have other : ¬ ((t.entry parent).parent == some s.index) = true := by simpa [entry] using outer
    rw [entries, List.filter_append, List.filter_append, none_before, none_after, listed_eq,
      List.filter_cons, if_neg other, List.nil_append, List.append_nil]
    rw [subtrees_eq, List.map_cons, List.nodup_cons] at single
    obtain ⟨root, distinct⟩ := single
    rcases inside with rfl | below
    · refine filter_listedAll_self fun u hu same => root ?_
      rw [Option.some.inj same]
      exact List.mem_map_of_mem hu
    · refine ih t ht distinct (fun same => root ?_) below
      rw [Option.some.inj same]
      exact List.mem_map_of_mem below

end FieldProcedure.Step

namespace FieldProcedure.Outline
open Step

/-- The same entries in another order, which siblings keep among themselves. -/
structure Reordered (rows listed : List Entry) : Prop where
  perm : rows.Perm listed
  siblings : ∀ parent, rows.filter (·.parent == parent) = listed.filter (·.parent == parent)

variable {rows : List Entry}

theorem within_listed {parent : Option Int} {level : List Step}
    (sub : ∀ e ∈ listedAll parent level, e ∈ rows)
    (above : parent = none ∨ ∃ p ∈ rows, parent = some p.step.index ∧ ∃ n, Within rows n p) :
    ∀ e ∈ listedAll parent level, ∃ n, Within rows n e := by
  -- Downwards a level at a time: what stands above a level has a way up, so the level has one.
  induction level using levelInduction generalizing parent with
  | h level ih =>
    intro e he
    obtain ⟨s, hs, inside⟩ := mem_listedAll.mp he
    have here : ∃ n, Within rows n (s.entry parent) := by
      rcases above with top | ⟨p, hp, names, n, near⟩
      · exact ⟨0, top⟩
      · exact ⟨n + 1, .inr ⟨p, hp, names, near⟩⟩
    rcases inside with rfl | below
    · exact here
    · have sub_below : ∀ r ∈ listedAll (some s.index) s.children, r ∈ rows := fun r hr =>
        sub r (mem_listedAll.mpr ⟨s, hs, .inr hr⟩)
      have own : s.entry parent ∈ rows := sub _ (mem_listedAll.mpr ⟨s, hs, .inl rfl⟩)
      exact ih s hs sub_below (.inr ⟨_, own, rfl, here⟩) e below

theorem grow_entry {grow : Entry → Step} {trees : List Step}
    (grown : ∀ e ∈ rows, Grown rows grow e)
    (family : ∀ s ∈ subtreesAll trees,
      childrenOf rows s.index = s.children.map (entry (some s.index)))
    {parent : Option Int} {level : List Step} (sub : ∀ s ∈ subtreesAll level, s ∈ subtreesAll trees)
    (listed : ∀ e ∈ listedAll parent level, e ∈ rows) :
    (level.map (entry parent)).map grow = level := by
  induction level using levelInduction generalizing parent with
  | h level ih =>
    rw [List.map_map]
    conv_rhs => rw [← List.map_id level]
    refine List.map_congr_left fun s hs => ?_
    have row : s.entry parent ∈ rows := listed _ (mem_listedAll.mpr ⟨s, hs, .inl rfl⟩)
    have whole : grow (s.entry parent) = _ := grown _ row
    have children : (s.children.map (entry (some s.index))).map grow = s.children :=
      ih s hs (fun t ht => sub t (mem_subtreesAll.mpr ⟨s, hs, .inr ht⟩))
        (fun e he => listed e (mem_listedAll.mpr ⟨s, hs, .inr he⟩))
    have own : childrenOf rows (s.entry parent).step.index =
        s.children.map (entry (some s.index)) :=
      family s (sub s (mem_subtreesAll.mpr ⟨s, hs, .inl rfl⟩))
    rw [own, children] at whole
    rw [Function.comp_apply, whole]
    cases s
    rfl

theorem forest_of_listed {trees : List Step}
    (distinct : ((subtreesAll trees).map (·.index)).Nodup)
    (reordered : Reordered rows (listedAll none trees)) : forest rows = .ok trees := by
  have rows_distinct : (indexes rows).Nodup := by
    rw [← indexes_listedAll none] at distinct
    exact (reordered.perm.map _).nodup_iff.mpr distinct
  have listed : ∀ e ∈ listedAll none trees, e ∈ rows := fun e he => reordered.perm.mem_iff.mpr he
  have rooted : Rooted rows := fun e he =>
    within_listed listed (.inl rfl) e (reordered.perm.mem_iff.mp he)
  obtain ⟨trees', grow, ok, rebuilt⟩ := forest_accepts rows_distinct rooted
  have family : ∀ s ∈ subtreesAll trees,
      childrenOf rows s.index = s.children.map (entry (some s.index)) := fun s hs =>
    (reordered.siblings _).trans (filter_listedAll distinct (by simp) hs)
  have top : rows.filter (·.parent.isNone) = trees.map (entry none) := by
    have siblings := reordered.siblings none
    rw [filter_listedAll_self (by simp)] at siblings
    rw [← siblings]
    exact List.filter_congr fun e _ => by cases e.parent <;> rfl
  have same : trees' = trees := by
    rw [rebuilt.top, top]
    exact grow_entry rebuilt.grown family (fun _ hs => hs) listed
  rw [ok, same]

/-- The trees of an accepted list are those that its parents describe, each entry once and nothing
else; and every forest with distinct indexes is rebuilt from its entries. -/
theorem forest_rebuilds :
    (∀ entries trees, forest entries = .ok trees → ∃ grow, Rebuilt entries grow trees) ∧
      ∀ trees rows, ((subtreesAll trees).map (·.index)).Nodup →
        Reordered rows (listedAll none trees) → forest rows = .ok trees :=
  ⟨fun _ _ h => forest_rebuilt h, fun _ _ distinct reordered => forest_of_listed distinct reordered⟩

def pumpHouse : List Step :=
  [{ index := 1, title := "Pump house", kind := .group, children :=
      [{ index := 2, title := "Gauges", kind := .group, children :=
          [{ index := 4, title := "Pressure", kind := .numeric }] },
        { index := 3, title := "Valve", kind := .photo }] },
    { index := 5, title := "Sign off", kind := .signature }]

def pumpHouseRows : List Entry :=
  [⟨{ index := 4, title := "Pressure", kind := .numeric }, some 2⟩,
    ⟨{ index := 2, title := "Gauges", kind := .group }, some 1⟩,
    ⟨{ index := 1, title := "Pump house", kind := .group }, none⟩,
    ⟨{ index := 3, title := "Valve", kind := .photo }, some 1⟩,
    ⟨{ index := 5, title := "Sign off", kind := .signature }, none⟩]

theorem pumpHouseRows_reordered : Reordered pumpHouseRows (listedAll none pumpHouse) where
  perm := (List.reverse_perm (pumpHouseRows.take 3)).symm.append_right (pumpHouseRows.drop 3)
  siblings parent := by
    rcases parent with _ | p
    · rfl
    · by_cases one : p = 1
      · subst one
        rfl
      · by_cases two : p = 2
        · subst two
          rfl
        · simp [pumpHouseRows, pumpHouse, listedAll, listed, entry, Ne.symm one, Ne.symm two]

theorem pumpHouse_rebuilt :
    (forest pumpHouseRows = .ok pumpHouse ∧ ∃ grow, Rebuilt pumpHouseRows grow pumpHouse) ∧
      ((subtreesAll pumpHouse).map (·.index)).Nodup ∧
        Reordered pumpHouseRows (listedAll none pumpHouse) ∧ forest pumpHouseRows = .ok pumpHouse :=
  have accepted : forest pumpHouseRows = .ok pumpHouse := by rfl
  have distinct : ((subtreesAll pumpHouse).map (·.index)).Nodup := by decide
  ⟨⟨accepted, forest_rebuilds.1 _ _ accepted⟩, distinct, pumpHouseRows_reordered,
    forest_rebuilds.2 _ _ distinct pumpHouseRows_reordered⟩

end FieldProcedure.Outline
