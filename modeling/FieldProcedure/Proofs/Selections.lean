import FieldProcedure.Proofs.Walks

/-! The selections that a procedure asks for. They are those of the authored selection steps, in
their order, and their bounds can be met: no more is asked for than is offered. The exception is a
selection with a list of its own that is empty, which is compiled as if it offered one choice. -/
namespace FieldProcedure

def Operation.selection? : Operation → Option Input
  | .simple _ (.input i) => if i.type = .selection then some i else none
  | _ => none

def Procedure.selections (p : Procedure) : List Input :=
  (Operation.walkAll p.level).filterMap Operation.selection?

namespace Step

def isSelection (s : Step) : Bool := s.kind = .selection

def isDynamic (s : Step) : Bool := s.config.flag "dynamic" false

def Offers (s : Step) : Prop := ∃ o ∈ s.options, Text.isAllBlank o = false

theorem offers_ne_nil_iff (s : Step) : s.offers ≠ [] ↔ s.Offers := by
  rw [← filterMap_options, Ne, Text.filterMap_trimmed?_eq_nil]
  simp [Offers]

theorem isAllBlank_of_mem_offers {s : Step} {o : String} (h : o ∈ s.offers) :
    Text.isAllBlank o = false := by
  obtain ⟨listed, filled⟩ := List.mem_filter.mp h
  obtain ⟨t, -, rfl⟩ := List.mem_map.mp listed
  rw [Text.isAllBlank_trim, ← Bool.not_eq_true, ← Text.trim_eq_empty]
  exact of_decide_eq_true filled

end Step

structure Choosable (s : Step) (i : Input) (choices : List String) (least most : Nat) : Prop where
  constraint : ∃ fixedMode, i.constraint = .selection choices fixedMode least most
  positive : 1 ≤ least
  ordered : least ≤ most
  enough : s.isDynamic = false → s.Offers → most ≤ choices.length
  empty : s.isDynamic = false → ¬ s.Offers → choices = [] ∧ most = 1
  source : s.isDynamic = true → ∃ url, i.dynamicUrl = some url ∧ Text.isAllBlank url = false

def Answerable (s : Step) (i : Input) : Prop :=
  ∃ choices least most, Choosable s i choices least most

section

variable {s : Step}

theorem one_le_mostChosen (s : Step) : 1 ≤ s.mostChosen := by
  unfold Step.mostChosen
  split
  · exact Nat.le_max_left _ _
  · exact Nat.le_refl 1

theorem mostChosen_le (s : Step) : s.mostChosen ≤ max 1 s.offers.length := by
  unfold Step.mostChosen
  split
  · exact Nat.le_refl _
  · exact Nat.le_max_left _ _

theorem choosable_choices (static : s.isDynamic = false) (fixedMode : Bool) :
    Choosable s ⟨.selection, s.isOptional, none,
      .selection s.offers fixedMode 1 s.mostChosen⟩ s.offers 1 s.mostChosen where
  constraint := ⟨fixedMode, rfl⟩
  positive := Nat.le_refl 1
  ordered := one_le_mostChosen s
  enough _ offers := by
    have some := List.length_pos_iff.mpr ((Step.offers_ne_nil_iff s).mpr offers)
    have bound := mostChosen_le s
    omega
  empty _ nothing := by
    have none : s.offers = [] := by
      by_contra some
      exact nothing ((Step.offers_ne_nil_iff s).mp some)
    have bound := mostChosen_le s
    have least := one_le_mostChosen s
    rw [none, List.length_nil] at bound
    exact ⟨none, by omega⟩
  source dynamic := by
    rw [static] at dynamic
    cases dynamic

theorem choosable_source (dynamic : s.isDynamic = true) (fixedMode : Bool) {url : String}
    (first : s.offers.head? = some url) :
    Choosable s ⟨.selection, s.isOptional, some url, .selection [] fixedMode 1 s.mostChosen⟩
      [] 1 s.mostChosen where
  constraint := ⟨fixedMode, rfl⟩
  positive := Nat.le_refl 1
  ordered := one_le_mostChosen s
  enough static := by
    rw [dynamic] at static
    cases static
  empty static := by
    rw [dynamic] at static
    cases static
  source _ := ⟨url, rfl, Step.isAllBlank_of_mem_offers (List.mem_of_head? first)⟩

theorem filter_isSelection_of_ne (hkind : s.kind ≠ .selection) :
    (some s).filter Step.isSelection = none := by
  rw [Option.filter_some, Step.isSelection, decide_eq_false hkind]
  rfl

theorem filter_isSelection (hkind : s.kind = .selection) :
    (some s).filter Step.isSelection = some s := by
  rw [Option.filter_some, Step.isSelection, decide_eq_true hkind]
  rfl

theorem Asks.selection {a : Act} (b : Base) (h : Asks s a) :
    Option.Rel Answerable ((some s).filter Step.isSelection)
      (Operation.selection? (.simple b a)) := by
  cases h with
  | confirm hkind | decision hkind | start hkind | finish hkind | dateTime hkind =>
    rw [filter_isSelection_of_ne (by rw [hkind]; decide)]
    exact .none
  | @plain type hkind =>
    have apart : ∀ known ∈ Kind.plainInputs, known.1 ≠ .selection ∧ known.2 ≠ .selection := by
      decide
    obtain ⟨otherKind, otherType⟩ := apart _ hkind
    rw [filter_isSelection_of_ne otherKind, Operation.selection?, if_neg otherType]
    exact .none
  | choices hkind static =>
    rw [filter_isSelection hkind, Operation.selection?, if_pos rfl]
    exact .some ⟨_, _, _, choosable_choices static _⟩
  | source hkind dynamic first =>
    rw [filter_isSelection hkind, Operation.selection?, if_pos rfl]
    exact .some ⟨_, _, _, choosable_source dynamic _ first⟩

end

theorem Stands.selection {place : Option Step} {o : Operation} (h : Stands place o) :
    Option.Rel Answerable (place.filter Step.isSelection) o.selection? := by
  cases h with
  | start | finish => exact .none
  | simple _ asks => exact asks.selection _
  | group hkind =>
    rw [filter_isSelection_of_ne (by rw [hkind]; decide)]
    exact .none

/-- The selections of a procedure are those of its author, one by one and in order. Their bounds are
in order, a dynamic one names a source, and any other asks for no more choices than it has, unless
its author offers nothing: then it has no choice and asks for one. -/
theorem selections_choosable {w : Workflow} {settings : Settings} {p : Procedure}
    (h : w.compile settings = .ok p) :
    List.Forall₂ Answerable ((Step.reachedAll w.steps).filter Step.isSelection) p.selections := by
  have answered : List.Forall₂ Answerable
      ((Step.slotsOf w.steps).filterMap fun place => place.filter Step.isSelection) p.selections :=
    List.rel_filterMap (fun _ _ stands => stands.selection) (Workflow.compile_walked h)
  rw [← Step.reduceOption_slotsOf, List.reduceOption, List.filter_filterMap]
  exact answered

def Workflow.tankLabels : Workflow where
  title := "Label the tank"
  steps := [
    { index := 1, kind := .group, children := [
        { index := 1, kind := .selection, options := ["  ", " https://assets.example/list "],
          config := .ofList [("dynamic", "yes")] }] },
    { index := 2, kind := .selection, options := ["Red", " ", "Green"],
      config := .ofList [("multi", "true")] }]

theorem tankLabels_choosable : ∃ p, Workflow.tankLabels.compile Workflow.stuttering = .ok p ∧
    List.Forall₂ Answerable ((Step.reachedAll Workflow.tankLabels.steps).filter Step.isSelection)
      p.selections := by
  obtain ⟨p, h⟩ : ∃ p, Workflow.tankLabels.compile Workflow.stuttering = .ok p :=
    Workflow.exists_compiled (by decide +kernel)
  exact ⟨p, h, selections_choosable h⟩

def Workflow.paint : Workflow where
  title := "Paint"
  steps := [{ index := 1, title := "Colour", kind := .selection }]

theorem paint_has_no_choice :
    (∀ s ∈ Step.reachedAll Workflow.paint.steps, s.isSelection = true ∧ s.isDynamic = false) ∧
      ∃ p, Workflow.paint.compile Workflow.stuttering = .ok p ∧
        ∃ i ∈ p.selections, ∃ choices fixedMode least most,
          i.constraint = .selection choices fixedMode least most ∧
            choices.length < least ∧ ¬ most ≤ choices.length := by
  have asked : (Workflow.paint.compile Workflow.stuttering).toOption.map (·.selections) =
      some [⟨.selection, false, none, .selection [] true 1 1⟩] := by decide +kernel
  obtain ⟨p, h⟩ : ∃ p, Workflow.paint.compile Workflow.stuttering = .ok p :=
    Workflow.exists_compiled (by decide +kernel)
  rw [h] at asked
  have selections : p.selections = [⟨.selection, false, none, .selection [] true 1 1⟩] :=
    Option.some.inj asked
  refine ⟨by decide +kernel, p, h, ?_⟩
  rw [selections]
  exact ⟨_, List.mem_singleton_self _, [], true, 1, 1, rfl, by decide, by decide⟩

end FieldProcedure
