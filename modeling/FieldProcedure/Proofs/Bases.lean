import FieldProcedure.Proofs.Rendering
import FieldProcedure.Proofs.Walks

/-! The bases of a procedure document. Every operation is rendered with one base, which carries its
id, and the bases of the document stand in the order in which the operations are walked. The ids of
connections are carried by other elements. -/
namespace FieldProcedure

namespace Markup.Element

mutual
def walk : Element → List Element
  | e@⟨_, _, _, children⟩ => e :: walkAll children
def walkAll : List Element → List Element
  | [] => []
  | e :: rest => e.walk ++ walkAll rest
end

theorem walk_eq (e : Element) : e.walk = e :: walkAll e.children := by
  cases e
  rfl

theorem walkAll_eq (es : List Element) : walkAll es = es.flatMap walk := by
  induction es with
  | nil => rfl
  | cons e rest ih => rw [walkAll, ih, List.flatMap_cons]

theorem Regular.walked {head : String → List (String × String) → Prop} {e : Element}
    (h : e.Regular head) : ∀ inner ∈ e.walk, head inner.name inner.attributes := by
  induction h with
  | bare here => exact List.forall_mem_singleton.mpr here
  | leaf here => exact List.forall_mem_singleton.mpr here
  | branch here _ each =>
    refine List.forall_mem_cons.mpr ⟨here, ?_⟩
    rw [walkAll_eq]
    intro inner hinner
    obtain ⟨c, hc, below⟩ := List.mem_flatMap.mp hinner
    exact each c hc inner below

def isBase (e : Element) : Bool := e.name = "Base"

def bases (e : Element) : List Element := e.walk.filter isBase

def basesAll (es : List Element) : List Element := es.flatMap bases

theorem bases_eq (e : Element) :
    e.bases = (if e.isBase then [e] else []) ++ basesAll e.children := by
  have below : (walkAll e.children).filter isBase = basesAll e.children := by
    rw [walkAll_eq, List.filter_flatMap]
    rfl
  rw [bases, walk_eq, List.filter_cons, below]
  split <;> rfl

@[simp] theorem bases_of_ne {name : String} (h : name ≠ "Base")
    (attributes : List (String × String)) (text : Option String) (children : List Element) :
    (Element.mk name attributes text children).bases = basesAll children := by
  rw [bases_eq, isBase, decide_eq_false h]
  rfl

@[simp] theorem bases_ofText {name : String} (h : name ≠ "Base") (text : String) :
    (ofText name text).bases = [] :=
  bases_of_ne h [] (some text) []

@[simp] theorem basesAll_nil : basesAll [] = [] := rfl

@[simp] theorem basesAll_cons (e : Element) (es : List Element) :
    basesAll (e :: es) = e.bases ++ basesAll es :=
  List.flatMap_cons

@[simp] theorem basesAll_append (es more : List Element) :
    basesAll (es ++ more) = basesAll es ++ basesAll more :=
  List.flatMap_append

theorem basesAll_map {α : Type} {f : α → Element} (h : ∀ a, (f a).bases = []) (l : List α) :
    basesAll (l.map f) = [] := by
  simp [basesAll, List.flatMap_map, h]

end Markup.Element

open Markup Markup.Element

namespace Rendering

@[simp] theorem basesAll_holding {name : String} (h : name ≠ "Base") (children : List Element) :
    basesAll (holding name children) = basesAll children := by
  unfold holding
  split
  · next empty => rw [List.isEmpty_iff.mp empty]
  · simp [h]

theorem bases_base (b : Base) : (baseElement b).bases = [baseElement b] := by
  have links : basesAll (b.links.map linkElement) = [] :=
    basesAll_map (fun l => bases_of_ne (by decide) ..) _
  have anchors : basesAll (b.links.map anchorElement) = [] :=
    basesAll_map (fun l => bases_of_ne (by decide) ..) _
  have tag : basesAll (b.tag.toList.map (Element.ofText "Tag")) = [] :=
    basesAll_map (bases_ofText (by decide)) _
  have designer : (designerElement b).bases = [] := by simp [designerElement, anchors]
  have below : basesAll (baseElement b).children = [] := by simp [baseElement, links, tag, designer]
  rw [bases_eq, below]
  rfl

theorem basesAll_act (a : Act) : basesAll (actElements a) = [] := by
  cases a with
  | confirm | start | terminate | decision => rfl
  | input i =>
    have url : basesAll (i.dynamicUrl.toList.map (Element.ofText "DynamicUrl")) = [] :=
      basesAll_map (bases_ofText (by decide)) _
    have constraint : (constraintElement i.constraint).bases = [] := by
      cases i.constraint with
      | unconstrained | dateTime => simp [constraintElement]
      | selection choices =>
        have each : basesAll (choices.map (Element.ofText "Choice")) = [] :=
          basesAll_map (bases_ofText (by decide)) _
        simp [constraintElement, each]
    simp [actElements, inputElements, url, constraint]

mutual
theorem bases_operation : ∀ o : Operation,
    (operationElement o).bases = o.walk.map (baseElement ·.base)
  | .simple base act => by
    simp [operationElement, bases_base, basesAll_act, Operation.walk, Operation.base]
  | .group base isForm level => by
    have inside := basesAll_operations level
    simp [operationElement, bases_base, inside, Operation.walk, Operation.base]
theorem basesAll_operations : ∀ ops : List Operation,
    basesAll (operationElements ops) = (Operation.walkAll ops).map (baseElement ·.base)
  | [] => rfl
  | o :: rest => by
    rw [operationElements, basesAll_cons, bases_operation o, basesAll_operations rest,
      Operation.walkAll, List.map_append]
end

end Rendering

open Rendering

theorem Procedure.bases_element (p : Procedure) :
    p.element.bases = (Operation.walkAll p.level).map (baseElement ·.base) := by
  have capabilities : basesAll (capabilities.map (Element.ofText "Capability")) = [] :=
    basesAll_map (bases_ofText (by decide)) _
  simp [Procedure.element, levelElement, capabilities, basesAll_operations]

mutual
theorem Operation.ids_eq : ∀ o : Operation, o.ids = o.walk.map (·.base.id)
  | .simple _ _ => rfl
  | .group base _ level => by rw [ids, idsAll_eq level, walk, List.map_cons, Operation.base]
theorem Operation.idsAll_eq : ∀ ops : List Operation, idsAll ops = (walkAll ops).map (·.base.id)
  | [] => rfl
  | o :: rest => by rw [idsAll, ids_eq o, idsAll_eq rest, walkAll, List.map_append]
end

theorem Procedure.named_of_id (p : Procedure) {e : Element} (he : e ∈ p.element.walk)
    (h : (e.attribute? "ID").isSome) : e.name = "Base" ∨ e.name = "Connection" := by
  have known : ∀ entry ∈ vocabulary, "ID" ∈ entry.2 →
      entry.1 = "Base" ∨ entry.1 = "Connection" := by decide
  refine known _ (p.regular_element.walked e he) ?_
  by_contra absent
  rw [attribute?, lookup_eq_none_of_not_mem absent] at h
  cases h

/-- The ids of the steps are those of the bases, of which a compiled document has one for each
authored step that lies in a level, and two for each level. -/
theorem stepIds_are_bases :
    (∀ p : Procedure, p.element.bases.map (·.attribute? "ID") = p.stepIds.map some ∧
      ∀ e ∈ p.element.walk, (e.attribute? "ID").isSome → e.name = "Base" ∨ e.name = "Connection") ∧
    ∀ (w : Workflow) (settings : Settings) (p : Procedure), w.compile settings = .ok p →
      p.stepIds.length = (Step.reachedAll w.steps).length + 2 +
        2 * (Step.reachedAll w.steps).countP Step.isGroup := by
  refine ⟨fun p => ⟨?_, fun e he => p.named_of_id he⟩, fun w settings p h => ?_⟩
  · have ids : ∀ b : Base, (baseElement b).attribute? "ID" = some b.id := fun _ => rfl
    rw [Procedure.bases_element, Procedure.stepIds, Operation.idsAll_eq]
    simp [ids]
  · have places := (Workflow.compile_walked h).length_eq
    rw [Procedure.stepIds, Operation.idsAll_eq, List.length_map, ← places, Step.length_slotsOf]

theorem pumpInspection_bases : ∃ p, Workflow.pumpInspection.compile Workflow.stuttering = .ok p ∧
    p.element.bases.length = 9 := by
  obtain ⟨p, h⟩ := Workflow.pumpInspection_compiles
  obtain ⟨ids, count⟩ := stepIds_are_bases
  have same := congrArg List.length (ids p).1
  rw [List.length_map, List.length_map, count _ _ _ h] at same
  exact ⟨p, h, same⟩

end FieldProcedure
