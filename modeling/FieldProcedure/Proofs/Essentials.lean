import FieldProcedure.Proofs.Compilation
import FieldProcedure.Proofs.Trimming
import FieldProcedure.Proofs.Vetting

/-! The essentials of a workflow: what is left of it once everything is cleared that the kind of its
step has no use for, hidden children with all that they hold, and the rest is written in one way
only. A workflow and its essentials fare alike: they compile to the same procedure, or fail with the
same error. Each pass over the tree is followed by itself, since each reads other fields. -/
namespace FieldProcedure

def Kind.flags : Kind → List String
  | .selection => ["optional", "multi", "dynamic", "fixed"]
  | .text | .numeric | .photo | .video | .signature | .barcode | .dateTime => ["optional"]
  | .group => ["form"]
  | .instruction | .decision | .start | .finish => []

def verdict (value : String) : String := if isTruthy value then "true" else "false"

def Config.reduced (c : Config) (flags : List String) : Config :=
  ⟨(c.entries.filter (·.1 ∈ flags)).map fun (key, value) => (key, verdict value)⟩

namespace Step

mutual
def essentials : Step → Step
  | ⟨id, index, title, description, tag, kind, paths, options, config, children⟩ => {
    id := id.bind Text.trimmed?
    index
    title
    description := if kind = .start then "" else description
    tag := if kind = .start || Text.isAllBlank tag then "" else tag
    kind
    paths
    options := if kind = .selection then options.filterMap Text.trimmed? else []
    config := config.reduced kind.flags
    children := if kind = .group then essentialsAll children else [] }
def essentialsAll : List Step → List Step
  | [] => []
  | s :: rest => s.essentials :: essentialsAll rest
end

end Step

def Workflow.essentials (w : Workflow) : Workflow where
  title := Text.trim w.title
  description := w.description.map Text.trim
  steps := w.steps.map Step.essentials

theorem isTruthy_verdict (value : String) : isTruthy (verdict value) = isTruthy value := by
  have yes : isTruthy "true" = true := by decide +kernel
  have no : isTruthy "false" = false := by decide +kernel
  unfold verdict
  split
  · next h => rw [yes, h]
  · next h => rw [no, eq_false_of_ne_true h]

theorem Kind.lower_flag (kind : Kind) : ∀ key ∈ kind.flags, Text.lower key = key := by
  cases kind <;> decide +kernel

namespace Config

theorem lookup_reduced (c : Config) {flags : List String} {key : String} (h : key ∈ flags) :
    (c.reduced flags).entries.lookup key = (c.entries.lookup key).map verdict := by
  unfold reduced
  induction c.entries with
  | nil => rfl
  | cons entry rest ih =>
    obtain ⟨k, value⟩ := entry
    by_cases same : key = k
    · subst same
      simp [h]
    · have other : (key == k) = false := beq_eq_false_iff_ne.mpr same
      by_cases kept : k ∈ flags
      · simp only [List.filter_cons, kept, decide_true, if_true, List.map_cons, List.lookup_cons,
          other, ih]
      · simp only [List.filter_cons, kept, decide_false, Bool.false_eq_true, if_false,
          List.lookup_cons, other, ih]

theorem flag_reduced (c : Config) {kind : Kind} {key : String} (h : key ∈ kind.flags)
    (default : Bool) : (c.reduced kind.flags).flag key default = c.flag key default := by
  simp only [flag, get?, kind.lower_flag key h, lookup_reduced c h, Option.map_map,
    Function.comp_def, isTruthy_verdict]

end Config

namespace Step

variable (s : Step) (level : List Step)

theorem essentialsAll_eq : essentialsAll level = level.map essentials := by
  induction level with
  | nil => rfl
  | cons s rest ih => rw [essentialsAll, ih, List.map_cons]

@[simp]
theorem essentials_index : s.essentials.index = s.index := by
  cases s
  rfl

@[simp]
theorem essentials_title : s.essentials.title = s.title := by
  cases s
  rfl

@[simp]
theorem essentials_kind : s.essentials.kind = s.kind := by
  cases s
  rfl

@[simp]
theorem essentials_paths : s.essentials.paths = s.paths := by
  cases s
  rfl

theorem essentials_description :
    s.essentials.description = if s.kind = .start then "" else s.description := by
  cases s
  rfl

theorem essentials_tag :
    s.essentials.tag = if s.kind = .start || Text.isAllBlank s.tag then "" else s.tag := by
  cases s
  rfl

theorem essentials_options : s.essentials.options =
    if s.kind = .selection then s.options.filterMap Text.trimmed? else [] := by
  cases s
  rfl

theorem essentials_config : s.essentials.config = s.config.reduced s.kind.flags := by
  cases s
  rfl

theorem essentials_children :
    s.essentials.children = if s.kind = .group then s.children.map essentials else [] := by
  cases s
  simp only [essentials, essentialsAll_eq]

@[simp]
theorem essentials_suppliedId? : s.essentials.suppliedId? = s.suppliedId? := by
  cases s
  exact Text.bind_trimmed? _

theorem essentials_flag {key : String} (h : key ∈ s.kind.flags) (default : Bool) :
    s.essentials.config.flag key default = s.config.flag key default := by
  rw [essentials_config]
  exact Config.flag_reduced s.config h default

@[simp]
theorem map_index_essentials : (level.map essentials).map (·.index) = level.map (·.index) := by
  rw [List.map_map]
  exact List.map_congr_left fun s _ => essentials_index s

end Step

namespace Vetting
open Step

variable (s : Step) (level : List Step)

@[simp]
theorem scope_essentials : scope (level.map essentials) = scope level := by
  rw [scope, map_index_essentials, scope]

theorem checkIndexes_essentials : checkIndexes (level.map essentials) = checkIndexes level := by
  simp only [checkIndexes, List.find?_map, Function.comp_def, essentials_index,
    map_index_essentials]
  cases level.find? fun s => s.index = startIndex || s.index = finishIndex with
  | none => rfl
  | some s => simp only [Option.map_some, essentials_index]

theorem checkId_essentials (seen : List String) : checkId seen s.essentials = checkId seen s := by
  rw [checkId, essentials_suppliedId?, checkId]

theorem checkSource_essentials : checkSource s.essentials = checkSource s := by
  unfold checkSource
  by_cases hkind : s.kind = .selection
  · have dynamic : s.essentials.config.flag "dynamic" false = s.config.flag "dynamic" false :=
      s.essentials_flag (by rw [hkind]; decide) false
    have blank : s.essentials.options.all Text.isAllBlank = s.options.all Text.isAllBlank := by
      rw [essentials_options, if_pos hkind, Bool.eq_iff_iff, ← Text.filterMap_trimmed?_eq_nil,
        ← Text.filterMap_trimmed?_eq_nil, Text.filterMap_trimmed?]
    rw [essentials_kind, essentials_index, dynamic, blank]
  · simp [hkind]

theorem checkOwn_essentials (scope : List Int) :
    checkOwn scope s.essentials = checkOwn scope s := by
  simp only [checkOwn, checkPaths, essentials_paths, essentials_index, checkSource_essentials]

theorem checkSteps_essentials (scope : List Int)
    (inner : ∀ s ∈ level, ∀ seen,
      checkLevel seen (s.children.map essentials) = checkLevel seen s.children)
    (seen : List String) :
    checkSteps scope seen (level.map essentials) = checkSteps scope seen level := by
  induction level generalizing seen with
  | nil => rfl
  | cons s rest ih =>
    have first : checkStep scope seen s.essentials = checkStep scope seen s := by
      simp only [checkStep_eq, checkId_essentials, checkOwn_essentials, essentials_kind,
        essentials_children]
      -- Only a group's children are checked, and a group keeps them.
      split
      · simp only [inner s List.mem_cons_self]
      · rfl
    have others := ih fun t ht => inner t (List.mem_cons_of_mem _ ht)
    simp only [List.map_cons, checkSteps, first, others]

theorem checkLevel_essentials : ∀ seen,
    checkLevel seen (level.map essentials) = checkLevel seen level := by
  induction level using levelInduction with
  | h level ih =>
    intro seen
    simp only [checkLevel, checkIndexes_essentials, scope_essentials,
      checkSteps_essentials level _ ih]

theorem suppliedIds_essentials : suppliedIds (level.map essentials) = suppliedIds level :=
  checkLevel_essentials level []

end Vetting

def Wired.essentials (w : Wired) : Wired := { w with step := w.step.essentials }

namespace Wiring
open Step

variable (level : List Step)

theorem framed_essentials : framed (level.map essentials) = (framed level).map essentials := by
  have first : opening.essentials = opening := rfl
  have last : closing.essentials = closing := rfl
  simp only [framed, List.cons_append, List.map_cons, List.map_append, List.map_nil, first, last]

theorem leadingTo_essentials (next : Int) (s : Step) :
    leadingTo next s.essentials = (leadingTo next s).essentials := by
  simp only [leadingTo, essentials_paths, essentials_kind]
  split
  · cases s
    rfl
  · rfl

theorem withDefaults_essentials :
    withDefaults (level.map essentials) = (withDefaults level).map essentials := by
  induction level with
  | nil => rfl
  | cons s rest ih =>
    cases rest with
    | nil => rfl
    | cons next rest =>
      simp only [List.map_cons] at ih
      simp only [List.map_cons, withDefaults, ih, essentials_index, leadingTo_essentials]

theorem idsOf_essentials : idsOf (level.map essentials) = idsOf level := by
  induction level with
  | nil => rfl
  | cons s rest ih => simp only [List.map_cons, idsOf, idOf, essentials_suppliedId?, ih]

theorem connect_essentials (byIndex : List (Int × String)) (position : Nat)
    (pairs : List (Step × String)) :
    connect byIndex position (pairs.map (Prod.map essentials id)) =
      List.map Wired.essentials <$> connect byIndex position pairs := by
  induction pairs generalizing position with
  | nil => rfl
  | cons pair rest ih =>
    obtain ⟨s, id⟩ := pair
    simp only [List.map_cons, Prod.map_apply, connect, essentials_index, essentials_paths, ih,
      map_bind, bind_map_left, map_pure]
    rfl

theorem wire_essentials :
    wire (level.map essentials) = List.map Wired.essentials <$> wire level := by
  simp only [wire, framed_essentials, map_index_essentials, idsOf_essentials,
    withDefaults_essentials, List.zip_map_left, connect_essentials]
  split
  · rfl
  · rw [map_bind]

end Wiring

namespace Compilation
open Drawing Wiring Step

variable (s : Step) (w : Wired) (level : List Step)

theorem selection_essentials (hkind : s.kind = .selection) :
    selection s.essentials = selection s := by
  have flags : ∀ key ∈ Kind.selection.flags, ∀ default,
      s.essentials.config.flag key default = s.config.flag key default :=
    fun key h => s.essentials_flag (hkind ▸ h)
  have options : s.essentials.options.filterMap Text.trimmed? =
      s.options.filterMap Text.trimmed? := by
    rw [essentials_options, if_pos hkind, Text.filterMap_trimmed?]
  simp only [selection, options, essentials_index, flags "multi" (by decide),
    flags "optional" (by decide), flags "dynamic" (by decide), flags "fixed" (by decide)]

theorem act_essentials : act s.essentials = act s := by
  have optional : ∀ {kind : Kind}, s.kind = kind → "optional" ∈ kind.flags →
      ∀ type constraint, typedInput s.essentials type constraint = typedInput s type constraint :=
    fun hkind h _ _ => by rw [typedInput, s.essentials_flag (hkind ▸ h), typedInput]
  unfold act
  rw [essentials_kind]
  cases hkind : s.kind
  case selection => exact selection_essentials s hkind
  case text | numeric | photo | video | signature | barcode | dateTime =>
    simp only [optional hkind (by decide)]
  all_goals rfl

theorem base_essentials : base w.essentials = base w := by
  obtain ⟨s, id, position, links⟩ := w
  have description : (if s.kind = .start then "" else s.essentials.description) =
      if s.kind = .start then "" else s.description := by
    rw [essentials_description]
    split <;> rfl
  have tag : (if s.kind = .start || Text.isAllBlank s.essentials.tag then none
      else some s.essentials.tag) =
      if s.kind = .start || Text.isAllBlank s.tag then none else some s.tag := by
    rw [essentials_tag]
    cases hblank : s.kind = .start || Text.isAllBlank s.tag with
    | false => simp only [Bool.false_eq_true, if_false, hblank]
    | true =>
      have empty : Text.isAllBlank "" = true := rfl
      simp only [if_true, empty, Bool.or_true]
  simp only [base, Wired.essentials, essentials_title, essentials_kind, description, tag]

theorem simple_essentials : simple w.essentials = simple w := by
  simp only [simple, base_essentials]
  rw [Wired.essentials, act_essentials]

theorem compileWired_essentials (inner : w.step.kind = .group →
    compileLevel (w.step.children.map essentials) = compileLevel w.step.children) :
    compileWired w.essentials = compileWired w := by
  unfold compileWired
  rw [simple_essentials, base_essentials]
  simp only [Wired.essentials, essentials_kind, essentials_children]
  by_cases hgroup : w.step.kind = .group
  · have kept : "form" ∈ w.step.kind.flags := by
      rw [hgroup]
      decide
    simp only [hgroup, if_true, inner hgroup, w.step.essentials_flag kept false]
  · simp only [hgroup, if_false]

theorem compileAll_essentials {wired : List Wired} (inner : ∀ w ∈ wired, w.step.kind = .group →
    compileLevel (w.step.children.map essentials) = compileLevel w.step.children) :
    compileAll (wired.map Wired.essentials) = compileAll wired := by
  induction wired with
  | nil => rfl
  | cons w rest ih =>
    have first := compileWired_essentials w (inner w List.mem_cons_self)
    have others := ih fun w' h => inner w' (List.mem_cons_of_mem _ h)
    rw [List.map_cons, compileAll, first, others, compileAll]

theorem compileLevel_essentials :
    compileLevel (level.map essentials) = compileLevel level := by
  induction level using wiredInduction with
  | h level ih =>
    rw [compileLevel_eq, compileLevel_eq, wire_essentials, bind_map_left]
    funext p
    refine bind_congr_of_gives fun wired q hwire => ?_
    obtain ⟨drawn, _, wires⟩ := wire_gives hwire
    rw [compileAll_essentials (ih wires)]

end Compilation

namespace Workflow

theorem drawing_essentials (w : Workflow) (settings : Settings) :
    w.essentials.drawing settings = w.drawing settings := by
  have description : w.essentials.description.bind Text.trimmed? =
      w.description.bind Text.trimmed? := by
    simp only [essentials, Option.bind_map, Function.comp_def, Text.trimmed?_trim]
  rw [drawing, description]
  simp only [essentials, Compilation.compileLevel_essentials, Text.trimmed?_trim, drawing]

/-- A workflow and its essentials compile to the same procedure, or fail with the same error. -/
theorem compile_essentials (w : Workflow) (settings : Settings) :
    w.essentials.compile settings = w.compile settings := by
  have vetted : Vetting.suppliedIds w.essentials.steps = Vetting.suppliedIds w.steps :=
    Vetting.suppliedIds_essentials w.steps
  cases hv : Vetting.suppliedIds w.steps with
  | error e => rw [compile_of_refused hv, compile_of_refused (vetted.trans hv)]
  | ok supplied =>
    rw [compile_of_passed hv, compile_of_passed (vetted.trans hv), drawing_essentials]

end Workflow
end FieldProcedure
