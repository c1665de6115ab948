import FieldProcedure.Vetting
import FieldProcedure.Proofs.Levels
import Mathlib.Data.List.Perm.Basic

/-! What vetting says of a tree. It passes the trees whose levels have distinct indexes, none of
them that of a start or an end, whose paths stay in their level, whose dynamic selections have a
source and whose supplied ids are distinct altogether; and a tree that it refuses has the fault that
it names. -/
namespace FieldProcedure.Vetting
open Step

inductive IndexFault (level : List Step) : CompileError → Prop
  | reserved {s : Step} : s ∈ level → s.index = startIndex ∨ s.index = finishIndex →
    IndexFault level (.reservedIndex s.index)
  | repeated {n : Int} : 2 ≤ (level.map (·.index)).count n → IndexFault level (.duplicateIndex n)

inductive StepFault (level : List Step) (s : Step) : CompileError → Prop
  | dangling {path : Path} : path ∈ s.paths → path.target ≠ startIndex →
    path.target ≠ finishIndex → path.target ∉ level.map (·.index) →
    StepFault level s (.unresolvedTarget s.index path.target)
  | sourceless : s.kind = .selection → s.config.flag "dynamic" false = true →
    (∀ o ∈ s.options, Text.isAllBlank o = true) → StepFault level s (.missingSource s.index)

def LevelFault (level : List Step) (e : CompileError) : Prop :=
  IndexFault level e ∨ ∃ s ∈ level, StepFault level s e

inductive Fault (top : List Step) : CompileError → Prop
  | level {level : List Step} {e : CompileError} : level ∈ levelsFrom top → LevelFault level e →
    Fault top e
  | sharedId {id : String} : 2 ≤ (suppliedFrom top).count id → Fault top (.duplicateId id)

structure LevelFit (level : List Step) : Prop where
  unreserved : ∀ s ∈ level, s.index ≠ startIndex ∧ s.index ≠ finishIndex
  distinct : (level.map (·.index)).Nodup
  resolved : ∀ s ∈ level, ∀ path ∈ s.paths,
    path.target = startIndex ∨ path.target = finishIndex ∨ path.target ∈ level.map (·.index)
  sourced : ∀ s ∈ level, s.kind = .selection → s.config.flag "dynamic" false = true →
    ∃ o ∈ s.options, Text.isAllBlank o = false

structure WellFormed (top : List Step) : Prop where
  fit : ∀ level ∈ levelsFrom top, LevelFit level
  unshared : (suppliedFrom top).Nodup

variable {level steps top : List Step} {s : Step} {seen ids ids' : List String} {e : CompileError}
  {F G : CompileError → Prop}

theorem levelFit_of_no_fault (h : ∀ e, ¬ LevelFault level e) : LevelFit level where
  unreserved s hs :=
    ⟨fun reserved => h _ (.inl (.reserved hs (.inl reserved))),
      fun reserved => h _ (.inl (.reserved hs (.inr reserved)))⟩
  distinct := List.nodup_iff_count_le_one.mpr fun n => by
    by_contra many
    exact h _ (.inl (.repeated (n := n) (by omega)))
  resolved s hs path hp := by
    by_contra away
    simp only [not_or] at away
    exact h _ (.inr ⟨s, hs, .dangling hp away.1 away.2.1 away.2.2⟩)
  sourced s hs hkind hdynamic := by
    by_contra none
    simp only [not_exists, not_and, Bool.not_eq_false] at none
    exact h _ (.inr ⟨s, hs, .sourceless hkind hdynamic none⟩)

theorem LevelFit.no_fault (h : LevelFit level) : ¬ LevelFault level e := by
  rintro (index | ⟨s, hs, step⟩)
  · cases index with
    | reserved hs reserved => exact reserved.elim (h.unreserved _ hs).1 (h.unreserved _ hs).2
    | repeated many => exact Nat.not_le_of_lt many (List.nodup_iff_count_le_one.mp h.distinct _)
  · cases step with
    | dangling hp start finish away =>
      rcases h.resolved s hs _ hp with hit | hit | hit
      · exact start hit
      · exact finish hit
      · exact away hit
    | sourceless hkind hdynamic blank =>
      obtain ⟨o, ho, filled⟩ := h.sourced s hs hkind hdynamic
      exact absurd (blank o ho) (by simp [filled])

theorem WellFormed.no_fault (h : WellFormed top) : ¬ Fault top e := by
  intro fault
  cases fault with
  | level hl fault => exact (h.fit _ hl).no_fault fault
  | sharedId many => exact Nat.not_le_of_lt many (List.nodup_iff_count_le_one.mp h.unshared _)

/-- What an answer says when the check looks for these faults and meets these ids. -/
def Vouches (F : CompileError → Prop) (ids seen : List String) :
    Except CompileError (List String) → Prop
  | .ok seen' => (∀ e, ¬ F e) ∧ seen'.Perm (ids ++ seen) ∧ (seen.Nodup → seen'.Nodup)
  | .error e => F e ∨ ∃ id, e = .duplicateId id ∧ 2 ≤ (ids ++ seen).count id

def Guards (F : CompileError → Prop) : Except CompileError Unit → Prop
  | .ok _ => ∀ e, ¬ F e
  | .error e => F e

namespace Vouches

variable {x : Except CompileError (List String)}
  {f : List String → Except CompileError (List String)}

theorem pure (seen : List String) : Vouches (fun _ => False) [] seen (.ok seen) :=
  ⟨fun _ => id, .refl _, id⟩

theorem bind (hx : Vouches F ids seen x) (hf : ∀ seen', Vouches G ids' seen' (f seen')) :
    Vouches (fun e => F e ∨ G e) (ids ++ ids') seen (x >>= f) := by
  cases x with
  | error e =>
    rcases hx with fault | ⟨id, rfl, many⟩
    · exact .inl (.inl fault)
    · refine .inr ⟨id, rfl, ?_⟩
      simp only [List.count_append] at many ⊢
      omega
  | ok seen' =>
    obtain ⟨sound, perm, distinct⟩ := hx
    -- The second check starts with what the first has seen.
    have hf := hf seen'
    change Vouches _ _ _ (f seen')
    cases hr : f seen' with
    | error e =>
      rw [hr] at hf
      rcases hf with fault | ⟨id, rfl, many⟩
      · exact .inl (.inr fault)
      · refine .inr ⟨id, rfl, ?_⟩
        simp only [List.count_append, perm.count_eq] at many ⊢
        omega
    | ok seen'' =>
      rw [hr] at hf
      obtain ⟨sound', perm', distinct'⟩ := hf
      refine ⟨fun e => not_or.mpr ⟨sound e, sound' e⟩, ?_, distinct' ∘ distinct⟩
      have swap : (ids' ++ (ids ++ seen)).Perm (ids ++ ids' ++ seen) := by
        rw [← List.append_assoc]
        exact List.perm_append_comm.append_right seen
      exact perm'.trans ((perm.append_left ids').trans swap)

theorem guard {g : Except CompileError Unit} (hg : Guards F g) (hx : Vouches G ids seen x) :
    Vouches (fun e => F e ∨ G e) ids seen (g >>= fun _ => x) := by
  cases g with
  | error e => exact .inl (.inl hg)
  | ok _ =>
    change Vouches _ _ _ x
    cases x with
    | error e => exact hx.imp_left .inr
    | ok seen' => exact ⟨fun e => not_or.mpr ⟨hg e, hx.1 e⟩, hx.2⟩

theorem congr (hx : Vouches F ids seen x) (faults : ∀ e, F e ↔ G e) (perm : ids.Perm ids') :
    Vouches G ids' seen x := by
  cases x with
  | error e =>
    refine hx.imp (faults e).mp ?_
    rintro ⟨id, rfl, many⟩
    refine ⟨id, rfl, ?_⟩
    rwa [(perm.append_right seen).count_eq] at many
  | ok seen' =>
    exact ⟨fun e => (hx.1 e) ∘ (faults e).mpr, hx.2.1.trans (perm.append_right seen), hx.2.2⟩

end Vouches

theorem checkIndexes_guards (level : List Step) :
    Guards (IndexFault level) (checkIndexes level) := by
  unfold checkIndexes
  split
  · next s hs =>
    have reserved := List.find?_some hs
    simp only [Bool.or_eq_true, decide_eq_true_eq] at reserved
    exact .reserved (List.mem_of_find?_eq_some hs) reserved
  · next unreserved =>
    split
    · next n hn => exact .repeated (two_le_count_of_firstRepeat? hn)
    · next distinct =>
      rintro e (⟨hs, reserved⟩ | many)
      · have free := List.find?_eq_none.mp unreserved _ hs
        simp only [Bool.or_eq_true, decide_eq_true_eq] at free
        exact free reserved
      · have once := List.nodup_iff_count_le_one.mp (firstRepeat?_eq_none_iff_nodup.mp distinct)
        exact Nat.not_le_of_lt many (once _)

theorem mem_scope {n : Int} :
    n ∈ scope level ↔ n = startIndex ∨ n = finishIndex ∨ n ∈ level.map (·.index) := by
  simp only [scope, List.mem_append, List.mem_cons, List.not_mem_nil, or_false]
  tauto

def checkOwn (scope : List Int) (s : Step) : Except CompileError Unit := do
  checkPaths scope s
  checkSource s

theorem checkOwn_guards (level : List Step) (s : Step) :
    Guards (StepFault level s) (checkOwn (scope level) s) := by
  unfold checkOwn checkPaths
  split
  · next path hp =>
    have away : path.target ∉ scope level := by simpa using List.find?_some hp
    simp only [mem_scope, not_or] at away
    exact .dangling (List.mem_of_find?_eq_some hp) away.1 away.2.1 away.2.2
  · next resolved =>
    change Guards _ (checkSource s)
    unfold checkSource
    -- No path was found that leaves the scope.
    have stays : ∀ path ∈ s.paths, path.target ∈ scope level := by
      simpa using List.find?_eq_none.mp resolved
    split
    · next h =>
      simp only [Bool.and_eq_true, decide_eq_true_eq, List.all_eq_true] at h
      exact .sourceless h.1.1 h.1.2 h.2
    · next h =>
      simp only [Bool.and_eq_true, decide_eq_true_eq, List.all_eq_true] at h
      rintro e (⟨hp, start, finish, away⟩ | ⟨hkind, hdynamic, blank⟩)
      · rcases mem_scope.mp (stays _ hp) with hit | hit | hit
        · exact start hit
        · exact finish hit
        · exact away hit
      · exact h ⟨⟨hkind, hdynamic⟩, blank⟩

theorem checkId_vouches (s : Step) (seen : List String) :
    Vouches (fun _ => False) s.suppliedId?.toList seen (checkId seen s) := by
  unfold checkId
  split
  · next h =>
    rw [h]
    exact .pure seen
  · next id h =>
    rw [h]
    split
    · next again =>
      refine .inr ⟨id, rfl, ?_⟩
      have earlier : 0 < seen.count id := List.count_pos_iff.mpr again
      simp only [Option.toList_some, List.count_append, List.count_singleton_self]
      omega
    · next new =>
      have fresh : seen.Nodup → (id :: seen).Nodup := fun distinct =>
        List.nodup_cons.mpr ⟨new, distinct⟩
      exact ⟨fun _ => not_false, .refl _, fresh⟩

def checkLevel (seen : List String) (level : List Step) : Except CompileError (List String) := do
  checkIndexes level
  checkSteps (scope level) seen level

theorem checkStep_eq (scope : List Int) (seen : List String) (s : Step) :
    checkStep scope seen s = checkId seen s >>= fun seen' => checkOwn scope s >>= fun _ =>
      if s.kind = .group then checkLevel seen' s.children else .ok seen' := by
  cases s
  simp only [checkStep, checkOwn, bind_assoc]
  rfl

def FaultInside (levels : List (List Step)) (e : CompileError) : Prop :=
  ∃ level ∈ levels, LevelFault level e

theorem checkStep_vouches (level : List Step)
    (inner : ∀ seen, Vouches (FaultInside (levelsFrom s.children)) (suppliedFrom s.children) seen
      (checkLevel seen s.children)) (seen : List String) :
    Vouches (fun e => StepFault level s e ∨ FaultInside s.levels e)
      (s.suppliedId?.toList ++ s.suppliedInside) seen (checkStep (scope level) seen s) := by
  have children : ∀ seen', Vouches (FaultInside s.levels) s.suppliedInside seen'
      (if s.kind = .group then checkLevel seen' s.children else .ok seen') := by
    intro seen'
    rw [suppliedInside_eq, levels_eq]
    split
    · exact inner seen'
    · exact (Vouches.pure seen').congr (by simp [FaultInside]) (.refl _)
  have own := fun seen' => Vouches.guard (checkOwn_guards level s) (children seen')
  rw [checkStep_eq]
  exact ((checkId_vouches s seen).bind own).congr (fun _ => iff_of_eq (false_or _)) (.refl _)

theorem checkSteps_vouches (level : List Step)
    (inner : ∀ s ∈ steps, ∀ seen, Vouches (FaultInside (levelsFrom s.children))
      (suppliedFrom s.children) seen (checkLevel seen s.children)) (seen : List String) :
    Vouches (fun e => (∃ s ∈ steps, StepFault level s e) ∨ FaultInside (levelsInside steps) e)
      (steps.flatMap fun s => s.suppliedId?.toList ++ s.suppliedInside) seen
      (checkSteps (scope level) seen steps) := by
  induction steps generalizing seen with
  | nil => exact (Vouches.pure seen).congr (by simp [FaultInside, levelsInside]) (.refl _)
  | cons s rest ih =>
    have first := checkStep_vouches level (inner s List.mem_cons_self) seen
    have others := ih fun t ht => inner t (List.mem_cons_of_mem _ ht)
    refine (first.bind others).congr (fun e => ?_) (.refl _)
    simp only [FaultInside, levelsInside, List.mem_append, List.mem_cons, or_and_right, exists_or,
      exists_eq_left]
    exact or_or_or_comm

theorem checkLevel_vouches (level : List Step) : ∀ seen,
    Vouches (FaultInside (levelsFrom level)) (suppliedFrom level) seen (checkLevel seen level) := by
  induction level using levelInduction with
  | h level ih =>
    intro seen
    have steps := checkSteps_vouches level ih seen
    refine (Vouches.guard (checkIndexes_guards level) steps).congr (fun e => ?_) ?_
    · simp only [FaultInside, levelsFrom, LevelFault, List.mem_cons, or_and_right, exists_or,
        exists_eq_left, or_assoc]
    · rw [suppliedFrom_eq, List.filterMap_eq_flatMap_toList]
      exact (List.flatMap_append_perm _ _ _).symm

theorem suppliedIds_ok (h : suppliedIds top = .ok ids) :
    WellFormed top ∧ ids.Perm (suppliedFrom top) := by
  have verdict : Vouches _ _ _ (suppliedIds top) := checkLevel_vouches top []
  rw [h] at verdict
  obtain ⟨sound, perm, distinct⟩ := verdict
  rw [List.append_nil] at perm
  refine ⟨⟨fun level hl => ?_, perm.nodup_iff.mp (distinct List.nodup_nil)⟩, perm⟩
  exact levelFit_of_no_fault fun e fault => sound e ⟨level, hl, fault⟩

theorem suppliedIds_error (h : suppliedIds top = .error e) : Fault top e := by
  have verdict : Vouches _ _ _ (suppliedIds top) := checkLevel_vouches top []
  rw [h] at verdict
  rcases verdict with ⟨level, hl, fault⟩ | ⟨id, rfl, many⟩
  · exact .level hl fault
  · rw [List.append_nil] at many
    exact .sharedId many

theorem suppliedIds_ok_iff : (∃ ids, suppliedIds top = .ok ids) ↔ WellFormed top := by
  constructor
  · rintro ⟨ids, h⟩
    exact (suppliedIds_ok h).1
  · intro wf
    cases h : suppliedIds top with
    | ok ids => exact ⟨ids, rfl⟩
    | error e => exact absurd (suppliedIds_error h) wf.no_fault

end FieldProcedure.Vetting
