import FieldProcedure.Proofs.Depths
import FieldProcedure.Proofs.Levels
import Mathlib.Data.List.Perm.Basic

/-! The moves by which a flat list becomes trees. What waits after a level has moved is that level,
every step of it with its whole subtree, so no step is left behind and none moves twice. -/
namespace FieldProcedure.Outline

variable {entries : List Entry}

def childrenOf (entries : List Entry) (index : Int) : List Entry :=
  entries.filter fun e => e.parent == some index

theorem mem_childrenOf {e : Entry} {index : Int} :
    e ∈ childrenOf entries index ↔ e ∈ entries ∧ e.parent = some index := by
  simp [childrenOf]

/-- An entry with its tree: its children are its own, then the trees of the entries that name it. -/
def Grown (entries : List Entry) (grow : Entry → Step) (e : Entry) : Prop :=
  grow e = { e.step with
    children := e.step.children ++ (childrenOf entries e.step.index).map grow }

structure Layered (entries : List Entry) (depth : Entry → Nat) : Prop where
  distinct : (indexes entries).Nodup
  exact : ∀ e ∈ entries, AtDepth entries (depth e) e

namespace Layered

variable {depth : Entry → Nat}

theorem eq_of_index (h : Layered entries depth) {e p : Entry} (he : e ∈ entries) (hp : p ∈ entries)
    (same : e.step.index = p.step.index) : e = p := List.inj_on_of_nodup_map h.distinct he hp same

theorem top_iff (h : Layered entries depth) {e : Entry} (he : e ∈ entries) :
    depth e = 0 ↔ e.parent = none := by
  rw [← @atDepth_zero entries]
  constructor
  · intro zero
    rw [← zero]
    exact h.exact e he
  · exact fun top => (h.exact e he).unique top

theorem exists_parent (h : Layered entries depth) {e : Entry} (he : e ∈ entries) {d : Nat}
    (hd : depth e = d + 1) : ∃ p ∈ entries, e.parent = some p.step.index ∧ depth p = d := by
  have below := h.exact e he
  rw [hd] at below
  obtain ⟨_, p, hp, parent, above⟩ := atDepth_succ.mp below
  exact ⟨p, hp, parent, (h.exact p hp).unique above⟩

theorem depth_child (h : Layered entries depth) {e p : Entry} (he : e ∈ entries) (hp : p ∈ entries)
    (parent : e.parent = some p.step.index) : depth e = depth p + 1 := by
  have lower : depth e ≠ 0 := fun top => by
    rw [(h.top_iff he).mp top] at parent
    cases parent
  obtain ⟨d, hd⟩ := Nat.exists_eq_succ_of_ne_zero lower
  obtain ⟨q, hq, parent', above⟩ := h.exists_parent he hd
  have same : p = q := h.eq_of_index hp hq (Option.some.inj (parent ▸ parent'))
  rw [hd, same, above]

end Layered

def underway (grow : Entry → Step) (rows : List Entry) : Waiting :=
  rows.filterMap fun e => e.parent.map (·, grow e)

theorem underway_append (grow : Entry → Step) (rows rows' : List Entry) :
    underway grow (rows ++ rows') = underway grow rows ++ underway grow rows' :=
  List.filterMap_append

theorem underway_cons {grow : Entry → Step} {e : Entry} {parent : Int} (he : e.parent = some parent)
    (rows : List Entry) : underway grow (e :: rows) = (parent, grow e) :: underway grow rows := by
  simp [underway, he]

theorem arrived_underway (grow : Entry → Step) (rows : List Entry) (index : Int) :
    ((underway grow rows).filter fun w => w.1 == index).map (·.2) =
      (childrenOf rows index).map grow := by
  induction rows with
  | nil => rfl
  | cons e rest ih =>
    cases parent : e.parent with
    | none => simpa [underway, childrenOf, parent] using ih
    | some p =>
      rw [underway_cons parent]
      by_cases here : p = index <;> simpa [childrenOf, parent, here] using ih

theorem left_underway (grow : Entry → Step) (rows : List Entry) (index : Int) :
    ((underway grow rows).filter fun w => !(w.1 == index)) =
      underway grow (rows.filter fun e => e.parent != some index) := by
  induction rows with
  | nil => rfl
  | cons e rest ih =>
    cases parent : e.parent with
    | none => simpa [underway, parent] using ih
    | some p =>
      rw [underway_cons parent]
      by_cases here : p = index <;> simpa [parent, here, underway_cons parent] using ih

theorem adopt_underway (s : Step) (grow : Entry → Step) (rows : List Entry) :
    adopt s (underway grow rows) =
      ({ s with children := s.children ++ (childrenOf rows s.index).map grow },
        underway grow (rows.filter fun e => e.parent != some s.index)) := by
  unfold adopt
  rw [List.partition_eq_filter_filter, ← arrived_underway, ← left_underway]
  rfl

theorem Grown.left {rows : List Entry} {grow : Entry → Step} {e : Entry} {index : Int}
    (h : Grown rows grow e) (apart : e.step.index ≠ index) :
    Grown (rows.filter fun r => r.parent != some index) grow e := by
  have same : childrenOf (rows.filter fun r => r.parent != some index) e.step.index =
      childrenOf rows e.step.index := by
    unfold childrenOf
    rw [List.filter_filter]
    refine List.filter_congr fun r _ => ?_
    by_cases here : r.parent = some e.step.index <;> simp [here, apart]
  unfold Grown
  rw [same]
  exact h

theorem Grown.append {rows : List Entry} {grow : Entry → Step} {e r : Entry}
    (h : Grown rows grow e) (foreign : r.parent ≠ some e.step.index) :
    Grown (rows ++ [r]) grow e := by
  have same : childrenOf (rows ++ [r]) e.step.index = childrenOf rows e.step.index := by
    simp [childrenOf, foreign]
  unfold Grown
  rw [same]
  exact h

theorem lift_underway {grow : Entry → Step} {level rows : List Entry}
    (complete : ∀ e ∈ level, Grown rows grow e)
    (distinct : (level.map (·.step.index)).Nodup)
    (flat : ∀ e ∈ level, ∀ p ∈ level, e.parent ≠ some p.step.index)
    (inner : ∀ e ∈ level, ∃ p, e.parent = some p) :
    lift (underway (·.step) level) (underway grow rows) =
      underway grow
        (rows.filter (fun r => ∀ p ∈ level, r.parent ≠ some p.step.index) ++ level) := by
  -- The induction goes along the level, while what waits changes with each of its steps.
  induction level generalizing rows with
  | nil => simp [lift, underway]
  | cons e rest ih =>
    obtain ⟨parent, he⟩ := inner e List.mem_cons_self
    obtain ⟨single, distinct⟩ := List.nodup_cons.mp distinct
    have whole : grow e = _ := complete e List.mem_cons_self
    rw [underway_cons he, lift, adopt_underway, ← whole]
    change lift _ (underway grow (rows.filter fun r => r.parent != some e.step.index) ++
      [(parent, grow e)]) = _
    rw [show [(parent, grow e)] = underway grow [e] from (underway_cons he []).symm,
      ← underway_append, ih]
    · -- The entry itself waits from now on, since no entry of its level names it.
      have stays : [e].filter (fun r => ∀ p ∈ rest, r.parent ≠ some p.step.index) = [e] := by
        simpa using fun p hp => flat e List.mem_cons_self p (List.mem_cons_of_mem _ hp)
      rw [List.filter_append, stays, List.filter_filter, List.append_assoc, List.singleton_append]
      congr 2
      refine List.filter_congr fun r _ => ?_
      rw [Bool.eq_iff_iff]
      simp [and_comm]
    · intro other hother
      have apart : other.step.index ≠ e.step.index := fun same =>
        single (List.mem_map.mpr ⟨other, hother, same⟩)
      have foreign := flat e List.mem_cons_self other (List.mem_cons_of_mem _ hother)
      exact ((complete other (List.mem_cons_of_mem _ hother)).left apart).append foreign
    · exact distinct
    · exact fun r hr p hp => flat r (List.mem_cons_of_mem _ hr) p (List.mem_cons_of_mem _ hp)
    · exact fun r hr => inner r (List.mem_cons_of_mem _ hr)

theorem settle_underway {grow : Entry → Step} {level rows : List Entry}
    (complete : ∀ e ∈ level, Grown rows grow e)
    (distinct : (level.map (·.step.index)).Nodup) :
    settle (level.map (·.step)) (underway grow rows) = level.map grow := by
  induction level generalizing rows with
  | nil => rfl
  | cons e rest ih =>
    obtain ⟨single, distinct⟩ := List.nodup_cons.mp distinct
    have whole : grow e = _ := complete e List.mem_cons_self
    rw [List.map_cons, settle, adopt_underway, ← whole, List.map_cons]
    refine congrArg (grow e :: ·) (ih (fun other hother => ?_) distinct)
    have apart : other.step.index ≠ e.step.index := fun same =>
      single (List.mem_map.mpr ⟨other, hother, same⟩)
    exact (complete other (List.mem_cons_of_mem _ hother)).left apart

def placed (entries : List Entry) (depth : Entry → Nat) : List (Entry × Nat) :=
  entries.map fun e => (e, depth e)

def rowsAt (entries : List Entry) (depth : Entry → Nat) (d : Nat) : List Entry :=
  entries.filter fun e => depth e = d

theorem mem_rowsAt {depth : Entry → Nat} {d : Nat} {e : Entry} :
    e ∈ rowsAt entries depth d ↔ e ∈ entries ∧ depth e = d := by
  simp [rowsAt]

theorem rowsAt_eq_nil {depth : Entry → Nat} {d : Nat} (bound : ∀ e ∈ entries, depth e < d) :
    rowsAt entries depth d = [] := by
  refine List.filter_eq_nil_iff.mpr fun e he here => ?_
  have lt := bound e he
  have same := of_decide_eq_true here
  omega

theorem levelAt_placed (depth : Entry → Nat) (d : Nat) :
    levelAt (placed entries depth) d = underway (·.step) (rowsAt entries depth d) := by
  unfold levelAt placed rowsAt
  rw [List.filterMap_map, underway, List.filterMap_filter]
  simp

namespace Layered

variable {depth : Entry → Nat} {grow : Entry → Step}

theorem nodup_rowsAt (h : Layered entries depth) (d : Nat) :
    ((rowsAt entries depth d).map (·.step.index)).Nodup :=
  h.distinct.sublist (List.filter_sublist.map _)

theorem rowsAt_zero (h : Layered entries depth) :
    rowsAt entries depth 0 = entries.filter (·.parent.isNone) := by
  refine List.filter_congr fun e he => ?_
  have top := h.top_iff he
  cases parent : e.parent <;> simp_all

theorem childrenOf_level (h : Layered entries depth) {e : Entry} (he : e ∈ entries) :
    childrenOf (rowsAt entries depth (depth e + 1)) e.step.index =
      childrenOf entries e.step.index := by
  unfold childrenOf rowsAt
  rw [List.filter_filter]
  refine List.filter_congr fun r hr => ?_
  by_cases names : r.parent = some e.step.index
  · simp [names, h.depth_child hr he names]
  · simp [names]

theorem grown_level (h : Layered entries depth) (grown : ∀ e ∈ entries, Grown entries grow e)
    {e : Entry} (he : e ∈ entries) :
    Grown (rowsAt entries depth (depth e + 1)) grow e := by
  unfold Grown
  rw [h.childrenOf_level he]
  exact grown e he

theorem lift_level (h : Layered entries depth) (grown : ∀ e ∈ entries, Grown entries grow e)
    (d : Nat) :
    lift (levelAt (placed entries depth) (d + 1))
        (underway grow (rowsAt entries depth (d + 2))) =
      underway grow (rowsAt entries depth (d + 1)) := by
  rw [levelAt_placed, lift_underway]
  · -- Nothing of the level below is left, for all of it has parents in this one.
    have all_moved : (rowsAt entries depth (d + 2)).filter (fun r =>
        ∀ p ∈ rowsAt entries depth (d + 1), r.parent ≠ some p.step.index) = [] := by
      rw [List.filter_eq_nil_iff]
      intro r hr all
      obtain ⟨hr, below⟩ := mem_rowsAt.mp hr
      obtain ⟨p, hp, parent, above⟩ := h.exists_parent hr below
      exact of_decide_eq_true all p (mem_rowsAt.mpr ⟨hp, above⟩) parent
    rw [all_moved, List.nil_append]
  · intro e he
    obtain ⟨he, hd⟩ := mem_rowsAt.mp he
    have whole := h.grown_level grown he
    rwa [hd] at whole
  · exact h.nodup_rowsAt _
  · intro e he p hp names
    obtain ⟨he, hd⟩ := mem_rowsAt.mp he
    obtain ⟨hp, hd'⟩ := mem_rowsAt.mp hp
    have below := h.depth_child he hp names
    omega
  · intro e he
    obtain ⟨he, hd⟩ := mem_rowsAt.mp he
    obtain ⟨p, _, parent, _⟩ := h.exists_parent he hd
    exact ⟨p.step.index, parent⟩

theorem liftFrom_level (h : Layered entries depth) (grown : ∀ e ∈ entries, Grown entries grow e)
    (d : Nat) :
    liftFrom (placed entries depth) d (underway grow (rowsAt entries depth (d + 1))) =
      underway grow (rowsAt entries depth 1) := by
  induction d with
  | zero => rfl
  | succ d ih => rw [liftFrom, h.lift_level grown, ih]

theorem topLevel_placed (h : Layered entries depth) :
    topLevel (placed entries depth) = (rowsAt entries depth 0).map (·.step) := by
  unfold topLevel placed rowsAt
  rw [List.filter_map, List.map_map]
  congr 1
  refine List.filter_congr fun e he => ?_
  have top := h.top_iff he
  cases parent : e.parent <;> simp_all

theorem settle_top (h : Layered entries depth) (grown : ∀ e ∈ entries, Grown entries grow e)
    {deepest : Nat} (bound : ∀ e ∈ entries, depth e < deepest + 1) :
    settle (topLevel (placed entries depth)) (liftFrom (placed entries depth) deepest []) =
      (rowsAt entries depth 0).map grow := by
  -- Before the first move nothing waits, and below the deepest level there is nothing.
  have start : ([] : Waiting) = underway grow (rowsAt entries depth (deepest + 1)) := by
    rw [rowsAt_eq_nil bound]
    rfl
  rw [start, h.liftFrom_level grown, h.topLevel_placed]
  apply settle_underway
  · intro e he
    obtain ⟨he, top⟩ := mem_rowsAt.mp he
    have whole := h.grown_level grown he
    rwa [top] at whole
  · exact h.nodup_rowsAt 0

end Layered

def gather (entries : List Entry) : Nat → Entry → Step
  | 0, e => e.step
  | levels + 1, e => { e.step with
    children := e.step.children ++ (childrenOf entries e.step.index).map (gather entries levels) }

namespace Layered

variable {depth : Entry → Nat} {grow : Entry → Step}

theorem gather_succ (h : Layered entries depth) {levels : Nat} {e : Entry} (he : e ∈ entries)
    (bound : ∀ r ∈ entries, depth r ≤ depth e + levels) :
    gather entries (levels + 1) e = gather entries levels e := by
  induction levels generalizing e with
  | zero =>
    -- Children would lie deeper than the deepest entry.
    have childless : childrenOf entries e.step.index = [] := by
      refine List.filter_eq_nil_iff.mpr fun r hr names => ?_
      have below := h.depth_child hr he (by simpa using names)
      have deepest := bound r hr
      omega
    rw [gather, gather, childless]
    cases e.step
    simp
  | succ levels ih =>
    rw [gather, gather]
    congr 2
    refine List.map_congr_left fun r hr => ?_
    obtain ⟨hr, names⟩ := mem_childrenOf.mp hr
    have below := h.depth_child hr he names
    exact ih hr fun q hq => by
      have deepest := bound q hq
      omega

theorem exists_grown (h : Layered entries depth) {deepest : Nat}
    (bound : ∀ e ∈ entries, depth e < deepest + 1) :
    ∃ grow : Entry → Step, ∀ e ∈ entries, Grown entries grow e := by
  refine ⟨gather entries deepest, fun e he => ?_⟩
  change gather entries deepest e = gather entries (deepest + 1) e
  refine (h.gather_succ he fun r hr => ?_).symm
  have le := Nat.le_of_lt_succ (bound r hr)
  exact Nat.le_trans le (Nat.le_add_left _ _)

theorem flatMap_childrenOf (h : Layered entries depth) (d : Nat) :
    ((rowsAt entries depth d).flatMap fun e => childrenOf entries e.step.index).Perm
      (rowsAt entries depth (d + 1)) := by
  have entries_nodup : entries.Nodup := h.distinct.of_map _
  have nodup : ((rowsAt entries depth d).flatMap fun e =>
      childrenOf entries e.step.index).Nodup := by
    rw [List.nodup_flatMap]
    refine ⟨fun e _ => entries_nodup.filter _, ?_⟩
    refine (entries_nodup.filter _).imp_of_mem fun {p q} hp hq apart r hr hr' => apart ?_
    -- A child of both would have two parents.
    have same := (mem_childrenOf.mp hr).2.symm.trans (mem_childrenOf.mp hr').2
    exact h.eq_of_index (mem_rowsAt.mp hp).1 (mem_rowsAt.mp hq).1 (Option.some.inj same)
  have next_nodup : (rowsAt entries depth (d + 1)).Nodup := entries_nodup.filter _
  rw [List.perm_ext_iff_of_nodup nodup next_nodup]
  intro r
  simp only [List.mem_flatMap, mem_rowsAt, mem_childrenOf]
  constructor
  · rintro ⟨e, ⟨he, rfl⟩, hr, names⟩
    exact ⟨hr, h.depth_child hr he names⟩
  · rintro ⟨hr, below⟩
    obtain ⟨e, he, names, above⟩ := h.exists_parent hr below
    exact ⟨e, ⟨he, above⟩, hr, names⟩

theorem subtrees_level (h : Layered entries depth) (grown : ∀ e ∈ entries, Grown entries grow e)
    (d : Nat) :
    (Step.subtreesAll ((rowsAt entries depth d).map grow)).Perm
      ((rowsAt entries depth d).flatMap
          (fun e => grow e :: Step.subtreesAll e.step.children) ++
        Step.subtreesAll ((rowsAt entries depth (d + 1)).map grow)) := by
  have opened : Step.subtreesAll ((rowsAt entries depth d).map grow) =
      (rowsAt entries depth d).flatMap fun e =>
        (grow e :: Step.subtreesAll e.step.children) ++
          (childrenOf entries e.step.index).flatMap fun r => (grow r).subtrees := by
    rw [Step.subtreesAll_eq, List.flatMap_map]
    refine List.flatMap_congr fun e he => ?_
    have whole : grow e = _ := grown e (mem_rowsAt.mp he).1
    rw [Step.subtrees_eq, List.cons_append]
    congr 1
    rw [whole, Step.subtreesAll_eq, List.flatMap_append, List.flatMap_map, Step.subtreesAll_eq]
  have moved : (rowsAt entries depth d).flatMap (fun e =>
      (childrenOf entries e.step.index).flatMap fun r => (grow r).subtrees) =
      ((rowsAt entries depth d).flatMap fun e =>
        childrenOf entries e.step.index).flatMap fun r => (grow r).subtrees := by
    rw [List.flatMap_assoc]
  -- The trees that moved into this level are those of the next one, in another order.
  rw [opened]
  refine (List.flatMap_append_perm _ _ _).symm.trans (List.Perm.append_left _ ?_)
  rw [moved, Step.subtreesAll_eq, List.flatMap_map]
  exact (h.flatMap_childrenOf d).flatMap_right _

theorem subtrees_from (h : Layered entries depth) (grown : ∀ e ∈ entries, Grown entries grow e)
    {n d : Nat} (bound : ∀ e ∈ entries, depth e < d + n) :
    (Step.subtreesAll ((rowsAt entries depth d).map grow)).Perm
      ((entries.filter fun e => d ≤ depth e).flatMap fun e =>
        grow e :: Step.subtreesAll e.step.children) := by
  induction n generalizing d with
  | zero =>
    have none_here : rowsAt entries depth d = [] := rowsAt_eq_nil bound
    have none_below : entries.filter (fun e => d ≤ depth e) = [] := by
      refine List.filter_eq_nil_iff.mpr fun e he here => ?_
      have lt := bound e he
      have le := of_decide_eq_true here
      omega
    rw [none_here, none_below]
    rfl
  | succ n ih =>
    have below := ih (d := d + 1) fun e he => by
      have lt := bound e he
      omega
    have here_or_below : (rowsAt entries depth d ++
        entries.filter fun e => d + 1 ≤ depth e).Perm (entries.filter fun e => d ≤ depth e) := by
      have split := List.filter_append_perm (fun e => decide (depth e = d))
        (entries.filter fun e => d ≤ depth e)
      rw [List.filter_filter, List.filter_filter] at split
      convert split using 2
      all_goals
        refine List.filter_congr fun e _ => ?_
        rw [Bool.eq_iff_iff]
        simp only [Bool.and_eq_true, Bool.not_eq_true', decide_eq_true_eq,
          decide_eq_false_iff_not]
        omega
    refine (h.subtrees_level grown d).trans ?_
    refine (List.Perm.append_left _ below).trans ?_
    rw [← List.flatMap_append]
    exact here_or_below.flatMap_right _

end Layered

/-- The trees that the parents of a flat list describe. -/
structure Rebuilt (entries : List Entry) (grow : Entry → Step) (trees : List Step) : Prop where
  top : trees = (entries.filter (·.parent.isNone)).map grow
  grown : ∀ e ∈ entries, Grown entries grow e
  once : (Step.subtreesAll trees).Perm
    (entries.flatMap fun e => grow e :: Step.subtreesAll e.step.children)

theorem Layered.exists_rebuilt {depth : Entry → Nat} (h : Layered entries depth) {deepest : Nat}
    (bound : ∀ e ∈ entries, depth e < deepest + 1) : ∃ grow, Rebuilt entries grow
      (settle (topLevel (placed entries depth)) (liftFrom (placed entries depth) deepest [])) := by
  obtain ⟨grow, grown⟩ := h.exists_grown bound
  rw [h.settle_top grown bound]
  have all : entries.filter (fun e => 0 ≤ depth e) = entries := by simp
  have once := h.subtrees_from grown (n := deepest + 1) (d := 0) fun e he => by
    have lt := bound e he
    omega
  rw [all] at once
  exact ⟨grow, by rw [h.rowsAt_zero], grown, once⟩

theorem forest_accepts (distinct : (indexes entries).Nodup) (rooted : Rooted entries) :
    ∃ trees grow, forest entries = .ok trees ∧ Rebuilt entries grow trees := by
  obtain ⟨depth, listed, exact⟩ := rooted.exists_depth
  have layered : Layered entries depth := ⟨distinct, exact⟩
  have ok : depths entries = .ok (entries.map depth) := depths_ok_iff.mpr ⟨rooted, listed.symm⟩
  have zipped : entries.zip (entries.map depth) = placed entries depth := by
    unfold placed
    rw [List.map_prod_left_eq_zip]
  obtain ⟨grow, rebuilt⟩ := layered.exists_rebuilt fun e he =>
    Nat.lt_succ_of_le (List.le_max?_getD_of_mem (k := 0) (List.mem_map_of_mem he))
  refine ⟨_, grow, ?_, rebuilt⟩
  unfold forest
  rw [firstRepeat?_eq_none_iff_nodup.mpr distinct, ok, ← zipped]
  rfl

theorem forest_ok {trees : List Step} (h : forest entries = .ok trees) :
    (indexes entries).Nodup ∧ Rooted entries := by
  unfold forest at h
  split at h
  · cases h
  · next no_repeat =>
    cases hds : depths entries with
    | error fault =>
      rw [hds] at h
      cases h
    | ok ds => exact ⟨firstRepeat?_eq_none_iff_nodup.mp no_repeat, (depths_ok_iff.mp hds).1⟩

theorem forest_rebuilt {trees : List Step} (h : forest entries = .ok trees) :
    ∃ grow, Rebuilt entries grow trees := by
  obtain ⟨distinct, rooted⟩ := forest_ok h
  obtain ⟨trees', grow, ok, rebuilt⟩ := forest_accepts distinct rooted
  have same : trees' = trees := Except.ok.inj (ok.symm.trans h)
  exact ⟨grow, same ▸ rebuilt⟩

end FieldProcedure.Outline
