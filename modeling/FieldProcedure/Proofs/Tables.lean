import FieldProcedure.Intake.Sheet
import FieldProcedure.Proofs.Acceptance
import FieldProcedure.Proofs.Forest
import Mathlib.Data.List.Pairwise
import Mathlib.Logic.Relation

/-! Which tables compile. The conditions on the trees of a table are conditions on its rows: a level
is the rows of one parent, and a row lies in a level that is compiled if all rows above it are
groups. So whether a table compiles can be read off its rows, without building a tree. -/
namespace FieldProcedure
namespace Outline
open Step Vetting

def Above (entries : List Entry) (p e : Entry) : Prop :=
  p ∈ entries ∧ e.parent = some p.step.index

def Exposed (entries : List Entry) (e : Entry) : Prop :=
  ∀ a, Relation.TransGen (Above entries) a e → a.step.kind = .group

/-- What an exposed entry must meet. Its siblings are the entries with its parent, and no other
exposed entry supplies its id. -/
structure Fits (entries : List Entry) (e : Entry) : Prop where
  unreserved : e.step.index ≠ startIndex ∧ e.step.index ≠ finishIndex
  resolved : ∀ path ∈ e.step.paths, path.target = startIndex ∨ path.target = finishIndex ∨
    ∃ r ∈ entries, r.parent = e.parent ∧ r.step.index = path.target
  sourced : e.step.kind = .selection → e.step.config.flag "dynamic" false = true →
    ∃ o ∈ e.step.options, Text.isAllBlank o = false
  unshared : ∀ id, e.step.suppliedId? = some id → ∀ r ∈ entries, Exposed entries r →
    r.step.suppliedId? = some id → r = e

structure Compilable (entries : List Entry) : Prop where
  distinct : (indexes entries).Nodup
  rooted : Rooted entries
  fits : ∀ e ∈ entries, Exposed entries e → Fits entries e

def family (entries : List Entry) (parent : Option Int) : List Entry :=
  entries.filter (·.parent == parent)

variable {entries : List Entry} {grow : Entry → Step} {trees level : List Step} {e p : Entry}
  {parent : Option Int}

theorem mem_family : e ∈ family entries parent ↔ e ∈ entries ∧ e.parent = parent := by
  simp [family]

theorem exposed_of_top (top : e.parent = none) : Exposed entries e := by
  intro a above
  cases above with
  | single last => cases top.symm.trans last.2
  | tail _ last => cases top.symm.trans last.2

theorem Exposed.above (h : Exposed entries e) (above : Above entries p e) :
    p.step.kind = .group ∧ Exposed entries p :=
  ⟨h p (.single above), fun a ha => h a (ha.tail above)⟩

theorem exposed_of_parent (distinct : (indexes entries).Nodup) (above : Above entries p e)
    (hgroup : p.step.kind = .group) (h : Exposed entries p) : Exposed entries e := by
  -- Where indexes are distinct an entry has one parent, so every way down to it passes there.
  have single : ∀ q, Above entries q e → q = p := fun q hq =>
    List.inj_on_of_nodup_map distinct hq.1 above.1 (Option.some.inj (hq.2.symm.trans above.2))
  intro a ha
  cases ha with
  | single last => exact single a last ▸ hgroup
  | tail before last =>
    rw [single _ last] at before
    exact h a before

namespace Rebuilt

theorem whole (h : Rebuilt entries grow trees) (childless : ∀ e ∈ entries, e.step.children = [])
    (he : e ∈ entries) :
    grow e = { e.step with children := (family entries (some e.step.index)).map grow } := by
  have grown : grow e = _ := h.grown e he
  rwa [childless e he, List.nil_append] at grown

variable (h : Rebuilt entries grow trees) (childless : ∀ e ∈ entries, e.step.children = [])
include h childless

theorem index (he : e ∈ entries) : (grow e).index = e.step.index :=
  (congrArg Step.index (h.whole childless he) :)

theorem kind (he : e ∈ entries) : (grow e).kind = e.step.kind :=
  (congrArg Step.kind (h.whole childless he) :)

theorem suppliedId? (he : e ∈ entries) : (grow e).suppliedId? = e.step.suppliedId? :=
  (congrArg Step.suppliedId? (h.whole childless he) :)

theorem children (he : e ∈ entries) :
    (grow e).children = (family entries (some e.step.index)).map grow :=
  (congrArg Step.children (h.whole childless he) :)

theorem indexes_family (parent : Option Int) :
    ((family entries parent).map grow).map (·.index) =
      (family entries parent).map (·.step.index) := by
  rw [List.map_map]
  exact List.map_congr_left fun e he => h.index childless (mem_family.mp he).1

omit childless in
theorem top_family : trees = (family entries none).map grow := by
  rw [h.top]
  congr 1
  exact List.filter_congr fun e _ => by cases e.parent <;> rfl

theorem exists_family (distinct : (indexes entries).Nodup) {inner : List Step}
    (exposed : ∀ e ∈ family entries parent, Exposed entries e)
    (hinner : inner ∈ levelsFrom ((family entries parent).map grow)) :
    ∃ parent', inner = (family entries parent').map grow ∧
      ∀ e ∈ family entries parent', Exposed entries e := by
  generalize hlevel : (family entries parent).map grow = level at hinner
  induction level using levelInduction generalizing parent with
  | h level ih =>
    rcases mem_levelsFrom.mp hinner with rfl | ⟨s, hs, hgroup, below⟩
    · exact ⟨parent, hlevel.symm, exposed⟩
    · have member := hs
      rw [← hlevel] at member
      obtain ⟨e, he, rfl⟩ := List.mem_map.mp member
      have hentry := (mem_family.mp he).1
      rw [h.kind childless hentry] at hgroup
      refine ih _ hs (fun r hr => ?_) (h.children childless hentry).symm below
      exact exposed_of_parent distinct ⟨hentry, (mem_family.mp hr).2⟩ hgroup (exposed e he)

theorem family_of_mem (distinct : (indexes entries).Nodup) (hl : level ∈ levelsFrom trees) :
    ∃ parent, level = (family entries parent).map grow ∧
      ∀ e ∈ family entries parent, Exposed entries e := by
  rw [h.top_family] at hl
  exact h.exists_family childless distinct (fun e he => exposed_of_top (mem_family.mp he).2) hl

theorem family_mem {n : Nat} (he : e ∈ entries) (near : Within entries n e)
    (exposed : Exposed entries e) : (family entries e.parent).map grow ∈ levelsFrom trees := by
  induction n generalizing e with
  | zero =>
    have top : e.parent = none := near
    rw [top, ← h.top_family]
    exact List.mem_cons_self
  | succ n ih =>
    rcases near with top | ⟨p, hp, parent, near⟩
    · rw [top, ← h.top_family]
      exact List.mem_cons_self
    · obtain ⟨hgroup, above⟩ := exposed.above ⟨hp, parent⟩
      have member : grow p ∈ (family entries p.parent).map grow :=
        List.mem_map_of_mem (mem_family.mpr ⟨hp, rfl⟩)
      rw [parent, ← h.children childless hp]
      rw [← h.kind childless hp] at hgroup
      exact children_mem_levelsFrom (ih hp near above) member hgroup

theorem mem_levels (distinct : (indexes entries).Nodup) (rooted : Rooted entries) {s : Step} :
    s ∈ (levelsFrom trees).flatten ↔ ∃ e ∈ entries, Exposed entries e ∧ s = grow e := by
  rw [List.mem_flatten]
  constructor
  · rintro ⟨level, hl, hs⟩
    obtain ⟨parent, rfl, exposed⟩ := h.family_of_mem childless distinct hl
    obtain ⟨e, he, rfl⟩ := List.mem_map.mp hs
    exact ⟨e, (mem_family.mp he).1, exposed e he, rfl⟩
  · rintro ⟨e, he, exposed, rfl⟩
    obtain ⟨n, near⟩ := rooted e he
    exact ⟨_, h.family_mem childless he near exposed,
      List.mem_map_of_mem (mem_family.mpr ⟨he, rfl⟩)⟩

theorem nodup_levels (distinct : (indexes entries).Nodup) : (levelsFrom trees).flatten.Nodup := by
  have once : (subtreesAll trees).Perm (entries.map grow) := by
    have each : entries.flatMap (fun e => grow e :: subtreesAll e.step.children) =
        entries.map grow := by
      rw [List.map_eq_flatMap]
      exact List.flatMap_congr fun e he => by rw [childless e he]; rfl
    exact each ▸ h.once
  have nodup : (entries.map grow).Nodup := by
    refine List.Nodup.of_map (·.index) ?_
    rw [List.map_map]
    exact (List.map_congr_left fun e he => h.index childless he) ▸ distinct
  obtain ⟨l, perm, sub⟩ := flatten_levelsFrom_subperm trees
  exact perm.nodup_iff.mp ((once.nodup_iff.mpr nodup).sublist sub)

theorem unshared_iff (distinct : (indexes entries).Nodup) (rooted : Rooted entries) :
    (suppliedFrom trees).Nodup ↔ ∀ e ∈ entries, Exposed entries e → ∀ id,
      e.step.suppliedId? = some id → ∀ r ∈ entries, Exposed entries r →
        r.step.suppliedId? = some id → r = e := by
  have mem {s : Step} := h.mem_levels childless distinct rooted (s := s)
  unfold suppliedFrom
  rw [List.nodup_iff_pairwise_ne, List.pairwise_filterMap]
  constructor
  · intro pairwise e he exposed id hid r hr exposed' hid'
    have symm : Std.Symm fun s t : Step => ∀ id, s.suppliedId? = some id →
        ∀ id', t.suppliedId? = some id' → id ≠ id' :=
      ⟨fun _ _ apart id hid id' hid' same => apart id' hid' id hid same.symm⟩
    by_contra other
    have apart : grow r ≠ grow e := fun same => by
      have indexes := congrArg Step.index same
      rw [h.index childless hr, h.index childless he] at indexes
      exact other (List.inj_on_of_nodup_map distinct hr he indexes)
    have differ := pairwise.forall (mem.mpr ⟨r, hr, exposed', rfl⟩)
      (mem.mpr ⟨e, he, exposed, rfl⟩) apart
    rw [h.suppliedId? childless hr, h.suppliedId? childless he] at differ
    exact differ id hid' id hid rfl
  · intro unshared
    refine (h.nodup_levels childless distinct).pairwise_of_forall_ne fun s hs t ht apart => ?_
    obtain ⟨e, he, exposed, rfl⟩ := mem.mp hs
    obtain ⟨r, hr, exposed', rfl⟩ := mem.mp ht
    rw [h.suppliedId? childless he, h.suppliedId? childless hr]
    rintro id hid _ hid' rfl
    exact apart (congrArg grow (unshared e he exposed id hid r hr exposed' hid').symm)

theorem fits_of_levelFit (he : e ∈ entries)
    (fit : LevelFit ((family entries e.parent).map grow))
    (unshared : ∀ id, e.step.suppliedId? = some id → ∀ r ∈ entries, Exposed entries r →
      r.step.suppliedId? = some id → r = e) : Fits entries e := by
  have member : grow e ∈ (family entries e.parent).map grow :=
    List.mem_map_of_mem (mem_family.mpr ⟨he, rfl⟩)
  have whole := h.whole childless he
  refine ⟨?_, fun path hpath => ?_, ?_, unshared⟩
  · rw [← h.index childless he]
    exact fit.unreserved _ member
  · have resolved := fit.resolved _ member path (by rw [whole]; exact hpath)
    refine resolved.imp_right (Or.imp_right fun sibling => ?_)
    rw [h.indexes_family childless] at sibling
    obtain ⟨r, hr, target⟩ := List.mem_map.mp sibling
    exact ⟨r, (mem_family.mp hr).1, (mem_family.mp hr).2, target⟩
  · have sourced := fit.sourced _ member
    rwa [whole] at sourced

theorem levelFit_of_fits (distinct : (indexes entries).Nodup) {parent : Option Int}
    (fits : ∀ e ∈ family entries parent, Fits entries e) :
    LevelFit ((family entries parent).map grow) := by
  have grown : ∀ s ∈ (family entries parent).map grow, ∃ e ∈ family entries parent,
      s = grow e ∧ e ∈ entries ∧ Fits entries e := by
    intro s hs
    obtain ⟨e, he, rfl⟩ := List.mem_map.mp hs
    exact ⟨e, he, rfl, (mem_family.mp he).1, fits e he⟩
  refine ⟨fun s hs => ?_, ?_, fun s hs path hpath => ?_, fun s hs => ?_⟩
  · obtain ⟨e, _, rfl, he, fit⟩ := grown s hs
    rw [h.index childless he]
    exact fit.unreserved
  · rw [h.indexes_family childless]
    exact distinct.sublist (List.filter_sublist.map _)
  · obtain ⟨e, hmem, rfl, he, fit⟩ := grown s hs
    rw [h.whole childless he] at hpath
    refine (fit.resolved path hpath).imp_right (Or.imp_right ?_)
    rintro ⟨r, hr, same, target⟩
    rw [h.indexes_family childless]
    have sibling : r ∈ family entries parent :=
      mem_family.mpr ⟨hr, same.trans (mem_family.mp hmem).2⟩
    exact List.mem_map.mpr ⟨r, sibling, target⟩
  · obtain ⟨e, _, rfl, he, fit⟩ := grown s hs
    rw [h.whole childless he]
    exact fit.sourced

theorem wellFormed_iff (distinct : (indexes entries).Nodup) (rooted : Rooted entries) :
    WellFormed trees ↔ ∀ e ∈ entries, Exposed entries e → Fits entries e := by
  have unshared := h.unshared_iff childless distinct rooted
  constructor
  · intro wf e he exposed
    obtain ⟨n, near⟩ := rooted e he
    have fit := wf.fit _ (h.family_mem childless he near exposed)
    exact h.fits_of_levelFit childless he fit (unshared.mp wf.unshared e he exposed)
  · intro fits
    refine ⟨fun level hl => ?_, unshared.mpr fun e he exposed => (fits e he exposed).unshared⟩
    obtain ⟨parent, rfl, exposed⟩ := h.family_of_mem childless distinct hl
    exact h.levelFit_of_fits childless distinct fun e he =>
      fits e (mem_family.mp he).1 (exposed e he)

end Rebuilt
end Outline

namespace Intake
open Outline

def Converts (rows : List Row) (entries : List Entry) : Prop :=
  List.Forall₂ (fun r e => r.1.entry r.2 = .ok e) (rows.zipIdx 1) entries

theorem Row.entry_childless {r : Row} {record : Nat} {e : Entry} (h : r.entry record = .ok e) :
    e.step.children = [] := by
  simp only [entry, bind, Except.bind] at h
  -- Every way through the row but one ends in a fault.
  repeat' split at h
  all_goals cases h
  all_goals rfl

theorem bind_ok {α β ε : Type} {x : Except ε α} {f : α → Except ε β} {b : β} :
    (x >>= f) = .ok b ↔ ∃ a, x = .ok a ∧ f a = .ok b := by
  cases x <;> simp [bind, Except.bind]

theorem entriesFrom_ok_iff {record : Nat} {rows : List Row} {entries : List Entry} :
    Sheet.entriesFrom record rows = .ok entries ↔
      List.Forall₂ (fun r e => r.1.entry r.2 = .ok e) (rows.zipIdx record) entries := by
  induction rows generalizing record entries with
  | nil =>
    rw [Sheet.entriesFrom, List.zipIdx_nil, List.forall₂_nil_left_iff, Except.ok.injEq, eq_comm]
  | cons r rest ih =>
    rw [Sheet.entriesFrom, List.zipIdx_cons, List.forall₂_cons_left_iff, bind_ok]
    refine exists_congr fun e => ?_
    rw [bind_ok]
    constructor
    · rintro ⟨first, more, later, same⟩
      exact ⟨more, first, ih.mp later, (Except.ok.inj same).symm⟩
    · rintro ⟨more, first, later, rfl⟩
      exact ⟨first, more, ih.mpr later, rfl⟩

theorem Converts.childless {rows : List Row} {entries : List Entry} (h : Converts rows entries) :
    ∀ e ∈ entries, e.step.children = [] := by
  intro e he
  obtain ⟨k, hk⟩ := List.mem_iff_getElem?.mp he
  obtain ⟨r, _, converted⟩ := Wiring.exists_left h hk
  exact Row.entry_childless converted

theorem mapError_ok {α ε ε' : Type} {x : Except ε α} {f : ε → ε'} {a : α} :
    x.mapError f = .ok a ↔ x = .ok a := by
  cases x <;> simp [Except.mapError]

theorem Sheet.workflow_ok_iff {s : Sheet} {w : Workflow} : s.workflow = .ok w ↔
    ∃ entries trees, Converts s.rows entries ∧ forest entries = .ok trees ∧
      w = ⟨s.title, s.description, trees⟩ := by
  rw [workflow, bind_ok]
  refine exists_congr fun entries => ?_
  rw [mapError_ok, bind_ok, Sheet.entries, entriesFrom_ok_iff]
  constructor
  · rintro ⟨converts, trees, built, same⟩
    exact ⟨trees, converts, mapError_ok.mp built, (Except.ok.inj same).symm⟩
  · rintro ⟨trees, converts, built, rfl⟩
    exact ⟨converts, trees, mapError_ok.mpr built, rfl⟩

end Intake

open Vetting Outline Intake

variable {w : Workflow} {settings : Settings} {entries : List Entry} {trees : List Step}

theorem Workflow.exists_compile_iff (hs : Function.Injective settings.supply) :
    (∃ p, w.compile settings = .ok p) ↔ WellFormed w.steps := by
  constructor
  · rintro ⟨p, h⟩
    obtain ⟨supplied, _, passed, _⟩ := Workflow.compile_ok h
    exact (suppliedIds_ok passed).1
  · intro wf
    obtain ⟨supplied, passed⟩ := suppliedIds_ok_iff.mpr wf
    obtain ⟨p, _, given⟩ := (Workflow.drawing_steady wf settings).gives
      (p := Workflow.poolWith settings supplied) hs
    exact ⟨p, (Workflow.compile_of_passed passed).trans (congrArg Prod.fst given)⟩

theorem Outline.Rebuilt.no_repeat {grow : Entry → Step} (h : Rebuilt entries grow trees)
    (childless : ∀ e ∈ entries, e.step.children = []) (distinct : (indexes entries).Nodup)
    (n : Int) : ¬ Fault trees (.duplicateIndex n) := by
  rintro (⟨hl, (many | ⟨_, _, ⟨⟩⟩)⟩ | _)
  obtain ⟨parent, rfl, _⟩ := h.family_of_mem childless distinct hl
  cases many with
  | repeated many =>
    rw [h.indexes_family childless] at many
    have once : ((family entries parent).map (·.step.index)).Nodup :=
      distinct.sublist (List.filter_sublist.map _)
    exact Nat.not_le_of_lt many (List.nodup_iff_count_le_one.mp once n)

/-- With a supply that never repeats itself, a table compiles iff its rows convert, have distinct
indexes and ways to the top level, and the exposed ones fit. With any supply, no index is ever
reported as repeated once the trees of a table are built. -/
theorem table_compiles_iff (s : Sheet) (settings : Settings) :
    (Function.Injective settings.supply →
      ((∃ w p, s.workflow = .ok w ∧ w.compile settings = .ok p) ↔
        ∃ entries, Converts s.rows entries ∧ Compilable entries)) ∧
    ∀ w n, s.workflow = .ok w → w.compile settings ≠ .error (.duplicateIndex n) := by
  refine ⟨fun hs => ⟨?_, ?_⟩, fun w n hw refused => ?_⟩
  · rintro ⟨w, p, hw, hp⟩
    obtain ⟨entries, trees, converts, built, rfl⟩ := Sheet.workflow_ok_iff.mp hw
    obtain ⟨distinct, rooted⟩ := forest_ok built
    obtain ⟨grow, rebuilt⟩ := forest_rebuilt built
    have wf : WellFormed trees := (Workflow.exists_compile_iff hs).mp ⟨p, hp⟩
    have fits := (rebuilt.wellFormed_iff converts.childless distinct rooted).mp wf
    exact ⟨entries, converts, distinct, rooted, fits⟩
  · rintro ⟨entries, converts, distinct, rooted, fits⟩
    obtain ⟨trees, grow, built, rebuilt⟩ := forest_accepts distinct rooted
    have wf : WellFormed trees :=
      (rebuilt.wellFormed_iff converts.childless distinct rooted).mpr fits
    let w : Workflow := ⟨s.title, s.description, trees⟩
    have hw : s.workflow = .ok w := Sheet.workflow_ok_iff.mpr ⟨entries, trees, converts, built, rfl⟩
    obtain ⟨p, hp⟩ := (Workflow.exists_compile_iff (w := w) hs).mpr wf
    exact ⟨w, p, hw, hp⟩
  · obtain ⟨entries, trees, converts, built, rfl⟩ := Sheet.workflow_ok_iff.mp hw
    obtain ⟨distinct, _⟩ := forest_ok built
    obtain ⟨grow, rebuilt⟩ := forest_rebuilt built
    rcases Workflow.compile_error refused with vetted | ⟨supplied, q, passed, fails⟩
    · exact rebuilt.no_repeat converts.childless distinct n (suppliedIds_error vetted)
    · -- What passes the vetting can only run out of identifiers.
      have steady := Workflow.drawing_steady (suppliedIds_ok passed).1 settings
      obtain ⟨last, exhausted⟩ := steady.exhausted fails
      cases exhausted

/-- A table with a child before its group, a path that leaves no level, and a row below a photo,
which is therefore not compiled and may name any target. -/
def pumpTable : Sheet where
  title := "Pump inspection"
  rows := [
    { index := "11", kind := some "Selection", options := some "oil; water", parent := some "1.0" },
    { index := "1", id := some " P-1 ", kind := some "group" },
    { index := "2", kind := some "decision", paths := some "again:1; -2" },
    { index := "3", kind := some "photo" },
    { index := "31", id := some "P-1", paths := some "99", parent := some "3" }]

theorem pumpTable_compiles : Function.Injective Workflow.strokes.supply ∧
    (∃ w p, pumpTable.workflow = .ok w ∧ w.compile Workflow.strokes = .ok p ∧
      ∀ n, w.compile Workflow.strokes ≠ .error (.duplicateIndex n)) ∧
    ∃ entries, Converts pumpTable.rows entries ∧ Compilable entries := by
  have injective : Function.Injective Workflow.strokes.supply := by
    intro m n h
    simpa [Workflow.strokes] using congrArg String.length h
  have passes : (pumpTable.workflow.bind fun w =>
      (w.compile Workflow.strokes).mapError Failure.compile).isOk = true := by decide +kernel
  cases hw : pumpTable.workflow with
  | error e => simp [hw, Except.bind, Except.isOk, Except.toBool] at passes
  | ok w =>
    cases hp : w.compile Workflow.strokes with
    | error e => simp [hw, hp, Except.bind, Except.mapError, Except.isOk, Except.toBool] at passes
    | ok p =>
      refine ⟨injective, ⟨w, p, rfl, hp, fun n => ?_⟩, ?_⟩
      · exact (table_compiles_iff pumpTable Workflow.strokes).2 w n hw
      · exact ((table_compiles_iff pumpTable Workflow.strokes).1 injective).mp ⟨w, p, hw, hp⟩

end FieldProcedure
