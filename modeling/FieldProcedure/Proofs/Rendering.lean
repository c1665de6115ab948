import FieldProcedure.Procedure
import FieldProcedure.Proofs.Digits
import FieldProcedure.Proofs.Elements

/-! What a procedure document is made of: elements of a fixed vocabulary, and in them the authored
texts, which no other text of the document is but a machine-made one of plain characters. -/
namespace FieldProcedure

open Markup Markup.Element

namespace Rendering

def vocabulary : List (String × List String) :=
  [("Procedure", ["IsReport"]), ("Report", ["Export"]), ("Step", ["Type"]),
    ("Step", ["Type", "IsReport"]), ("Base", ["ID"]),
    ("Connection", ["Type", "ID", "Source", "Sink"]), ("Connection", ["ID", "Anchor"])] ++
    ["ID", "Title", "Description", "DocVersion", "Version", "Author", "Metadata", "Interlocked",
      "DateModified", "Capabilities", "Capability", "Steps", "Tag", "Connections", "DesignerData",
      "Position", "Size", "ConnectionAnchors", "InputType", "IsOptional", "DynamicUrl",
      "InputParameter", "Constraint", "ConstraintType", "DisplayDate", "DisplayTime", "Choices",
      "Choice", "FixedMode", "MinSelection", "MaxSelection"].map (·, [])

def Listed (name : String) (attributes : List (String × String)) : Prop :=
  (name, attributes.map (·.1)) ∈ vocabulary

instance (name : String) (attributes : List (String × String)) :
    Decidable (Listed name attributes) :=
  inferInstanceAs (Decidable ((name, attributes.map (·.1)) ∈ vocabulary))

theorem regular_holding (name : String) {children : List Element} (h : Listed name [])
    (each : ∀ c ∈ children, c.Regular Listed) : ∀ c ∈ holding name children, c.Regular Listed := by
  unfold holding
  split
  · simp
  · simpa using Regular.of_children h each

theorem regular_link (l : Link) : (linkElement l).Regular Listed :=
  .bare (by simp [Listed, vocabulary])

theorem regular_anchor (l : Link) : (anchorElement l).Regular Listed :=
  .bare (by simp [Listed, vocabulary])

theorem regular_designer (b : Base) : (designerElement b).Regular Listed := by
  have anchors := regular_holding "ConnectionAnchors" (by decide)
    (List.forall_mem_map.mpr fun l (_ : l ∈ b.links) => regular_anchor l)
  refine .of_children (by decide) (List.forall_mem_append.mpr ⟨?_, anchors⟩)
  simp [Listed, vocabulary]

theorem regular_base (b : Base) : (baseElement b).Regular Listed := by
  have links := regular_holding "Connections" (by decide)
    (List.forall_mem_map.mpr fun l (_ : l ∈ b.links) => regular_link l)
  refine .of_children (by simp [Listed, vocabulary]) ?_
  simp only [List.forall_mem_append]
  exact ⟨⟨⟨by simp [Listed, vocabulary], by simp [Listed, vocabulary]⟩, links⟩,
    by simp [regular_designer]⟩

theorem regular_constraint (c : Constraint) : (constraintElement c).Regular Listed := by
  cases c <;> simp [constraintElement, regular_iff, Listed, vocabulary]

theorem regular_act : ∀ a : Act, ∀ c ∈ actElements a, c.Regular Listed
  | .input i => by
    have parameter :
        Regular Listed ⟨"InputParameter", [], none, [constraintElement i.constraint]⟩ :=
      .of_children (by decide) (by simp [regular_constraint])
    simp only [actElements, inputElements, List.forall_mem_append]
    exact ⟨⟨by simp [Listed, vocabulary], by simp [Listed, vocabulary]⟩, by simp [parameter]⟩
  | .confirm | .start | .terminate | .decision => fun _ hc => nomatch hc

mutual
theorem regular_operation : ∀ o : Operation, (operationElement o).Regular Listed
  | .simple base act =>
    .of_children (by simp [Listed, vocabulary])
      (List.forall_mem_cons.mpr ⟨regular_base base, regular_act act⟩)
  | .group base isForm level => by
    have inside : Regular Listed ⟨"Steps", [], none, operationElements level⟩ :=
      .of_children (by decide) (regular_operations level)
    exact .of_children (by simp [Listed, vocabulary]) (by simp [regular_base, inside])
theorem regular_operations : ∀ level : List Operation,
    ∀ c ∈ operationElements level, c.Regular Listed
  | [] => fun _ hc => nomatch hc
  | o :: rest => List.forall_mem_cons.mpr ⟨regular_operation o, regular_operations rest⟩
end

end Rendering

open Rendering in
theorem Procedure.regular_element (p : Procedure) : p.element.Regular Listed := by
  have level : (levelElement p.level).Regular Listed :=
    .of_children (by decide) (regular_operations p.level)
  refine .of_children (by decide) ?_
  simp only [List.forall_mem_append, List.forall_mem_map]
  exact ⟨⟨by simp [Listed, vocabulary], by simp [Listed, vocabulary]⟩, by
    simp [level, capabilities, regular_iff, Listed, vocabulary]⟩

/-! ### Authored texts -/

def Printable (s : String) : Prop := ∀ c ∈ s.toList, 0x20 ≤ c.toNat ∧ c.toNat ≤ 0x7E

instance (s : String) : Decidable (Printable s) := List.decidableBAll _ _

theorem Printable.append {s t : String} (hs : Printable s) (ht : Printable t) :
    Printable (s ++ t) := by
  rw [Printable, String.toList_append, List.forall_mem_append]
  exact ⟨hs, ht⟩

theorem printable_repr (n : Nat) : Printable n.repr := by
  intro c hc
  rw [Nat.toList_repr] at hc
  have digit := Number.isDigit_iff.mp (Nat.isDigit_of_mem_toDigits (by decide) (by decide) hc)
  exact ⟨Nat.le_trans (by decide) digit.1, Nat.le_trans digit.2 (by decide)⟩

namespace Timestamp

theorem printable_padded (width n : Nat) : Printable (padded width n) := by
  refine Printable.append (fun c hc => ?_) (printable_repr n)
  rw [String.toList_ofList] at hc
  rw [List.eq_of_mem_replicate hc]
  decide

theorem printable_yearText (year : Int) : Printable (yearText year) := by
  unfold yearText
  split_ifs with negative fits
  · exact .append (by decide) (printable_padded _ _)
  · exact printable_padded _ _
  · have natural : year = year.toNat := by omega
    rw [natural]
    exact .append (by decide) (printable_repr _)

theorem printable_toText (t : Timestamp) : Printable t.toText := by
  have year := printable_yearText t.year
  have part := printable_padded
  exact (((((((((((year.append (by decide)).append (part _ _)).append (by decide)).append
    (part _ _)).append (by decide)).append (part _ _)).append (by decide)).append (part _ _)).append
    (by decide)).append (part _ _)).append (by decide)).append (part _ _)

end Timestamp

def Base.texts (b : Base) : List String := b.title :: b.description :: b.tag.toList

def Base.values (b : Base) : List String :=
  b.id :: b.links.flatMap fun l => [l.label, l.id, l.source, l.sink]

def Constraint.texts : Constraint → List String
  | .selection choices .. => choices
  | _ => []

def Act.texts : Act → List String
  | .input i => i.dynamicUrl.toList ++ i.constraint.texts
  | _ => []

mutual
def Operation.texts : Operation → List String
  | .simple base act => base.texts ++ act.texts
  | .group base _ level => base.texts ++ Operation.textsAll level
def Operation.textsAll : List Operation → List String
  | [] => []
  | o :: rest => o.texts ++ Operation.textsAll rest
end

mutual
def Operation.values : Operation → List String
  | .simple base _ => base.values
  | .group base _ level => base.values ++ Operation.valuesAll level
def Operation.valuesAll : List Operation → List String
  | [] => []
  | o :: rest => o.values ++ Operation.valuesAll rest
end

def Procedure.texts (p : Procedure) : List String :=
  [p.id, p.title, p.description] ++ Operation.textsAll p.level

def Procedure.values (p : Procedure) : List String := Operation.valuesAll p.level

namespace Rendering

theorem printable_boolText (b : Bool) : Printable (boolText b) := by
  cases b <;> decide

theorem printable_name (i : InputType) : Printable i.name := by
  cases i <;> decide

theorem printable_typeName (a : Act) : Printable a.typeName := by
  cases a <;> (rw [Act.typeName]; decide)

structure Machine (P Q : String → Prop) : Prop where
  text : ∀ s, Printable s → P s
  value : ∀ s, Printable s → Q s

variable {P Q : String → Prop}

theorem holds_holding {name : String} {children : List Element} :
    (∀ c ∈ holding name children, c.Holds P Q) ↔ ∀ c ∈ children, c.Holds P Q := by
  cases children <;> simp [holding, holds_children_iff]

theorem holds_link (l : Link) :
    (linkElement l).Holds P Q ↔ ∀ v ∈ [l.label, l.id, l.source, l.sink], Q v := by
  simp [linkElement, holds_children_iff]

theorem holds_anchor (m : Machine P Q) (l : Link) : (anchorElement l).Holds P Q ↔ Q l.id := by
  simp [anchorElement, holds_children_iff, m.value "Bottom|Top" (by decide)]

theorem holds_designer (m : Machine P Q) (b : Base) :
    (designerElement b).Holds P Q ↔ ∀ l ∈ b.links, Q l.id := by
  have position : P ("50," ++ toString (100 * (1 + b.position))) :=
    m.text _ (.append (by decide) (printable_repr _))
  have size : P "0,0" := m.text _ (by decide)
  simp only [designerElement, holds_children_iff, List.forall_mem_append, List.forall_mem_cons,
    List.not_mem_nil, false_imp_iff, implies_true, List.forall_mem_map, holds_holding,
    holds_anchor m, holds_ofText, position, size, true_and]

theorem holds_base (m : Machine P Q) (b : Base) :
    (baseElement b).Holds P Q ↔ (∀ t ∈ b.texts, P t) ∧ ∀ v ∈ b.values, Q v := by
  simp only [baseElement, holds_children_iff, List.forall_mem_append, List.forall_mem_cons,
    List.not_mem_nil, false_imp_iff, implies_true, List.forall_mem_map, holds_holding,
    holds_designer m, holds_ofText, holds_link, Base.texts, Base.values, List.forall_mem_flatMap,
    and_true]
  constructor
  · rintro ⟨id, ⟨⟨⟨title, description⟩, tag⟩, links⟩, -⟩
    exact ⟨⟨title, description, tag⟩, id, links⟩
  · rintro ⟨⟨title, description, tag⟩, id, links⟩
    exact ⟨id, ⟨⟨⟨title, description⟩, tag⟩, links⟩, fun l hl => (links l hl).2.1⟩

theorem holds_constraint (m : Machine P Q) (c : Constraint) :
    (constraintElement c).Holds P Q ↔ ∀ t ∈ c.texts, P t := by
  cases c with
  | unconstrained =>
    simp [constraintElement, holds_children_iff, Constraint.texts, m.text "None" (by decide)]
  | dateTime =>
    simp [constraintElement, holds_children_iff, Constraint.texts, m.text "true" (by decide)]
  | selection choices fixedMode least most =>
    simp [constraintElement, holds_children_iff, Constraint.texts,
      m.text _ (printable_boolText _), m.text _ (printable_repr _)]

theorem holds_act (m : Machine P Q) (a : Act) :
    (∀ c ∈ actElements a, c.Holds P Q) ↔ ∀ t ∈ a.texts, P t := by
  cases a with
  | input i =>
    have type : P i.type.name := m.text _ (printable_name _)
    have optional : P (boolText i.isOptional) := m.text _ (printable_boolText _)
    simp only [actElements, inputElements, Act.texts, List.forall_mem_append, List.forall_mem_cons,
      List.not_mem_nil, false_imp_iff, implies_true, List.forall_mem_map, holds_children_iff,
      holds_ofText, holds_constraint m, type, optional, true_and, and_true]
  | _ => simp [actElements, Act.texts]

mutual
theorem holds_operation (m : Machine P Q) : ∀ o : Operation,
    (operationElement o).Holds P Q ↔ (∀ t ∈ o.texts, P t) ∧ ∀ v ∈ o.values, Q v
  | .simple base act => by
    have type : Q act.typeName := m.value _ (printable_typeName act)
    simp only [operationElement, holds_children_iff, List.forall_mem_cons, List.not_mem_nil,
      false_imp_iff, implies_true, type, holds_base m, holds_act m, Operation.texts,
      Operation.values, List.forall_mem_append, true_and]
    exact and_right_comm
  | .group base isForm level => by
    have type : Q "GroupStep" := m.value _ (by decide)
    have report : Q (boolText isForm) := m.value _ (printable_boolText isForm)
    simp only [operationElement, holds_children_iff, List.forall_mem_cons, List.not_mem_nil,
      false_imp_iff, implies_true, type, report, holds_base m, holds_operations m level,
      Operation.texts, Operation.values, List.forall_mem_append, true_and, and_true]
    exact and_and_and_comm
theorem holds_operations (m : Machine P Q) : ∀ level : List Operation,
    (∀ c ∈ operationElements level, c.Holds P Q) ↔
      (∀ t ∈ Operation.textsAll level, P t) ∧ ∀ v ∈ Operation.valuesAll level, Q v
  | [] => by simp [operationElements, Operation.textsAll, Operation.valuesAll]
  | o :: rest => by
    simp only [operationElements, Operation.textsAll, Operation.valuesAll, List.forall_mem_cons,
      List.forall_mem_append, holds_operation m o, holds_operations m rest]
    exact and_and_and_comm
end

/-- What holds of machine-made texts holds of all texts of a document when it does of the authored
ones. -/
theorem holds_element (m : Machine P Q) (p : Procedure) :
    p.element.Holds P Q ↔ (∀ t ∈ p.texts, P t) ∧ ∀ v ∈ p.values, Q v := by
  have blank : P "" := m.text _ (by decide)
  have interlocked : P "false" := m.text _ (by decide)
  have flag : Q "false" := m.value _ (by decide)
  have modified : P p.modified.toText := m.text _ p.modified.printable_toText
  have printable : ∀ c ∈ Procedure.capabilities, Printable c := by decide
  have capability : (∀ c ∈ Procedure.capabilities, P c) ↔ True :=
    iff_true_intro fun c hc => m.text c (printable c hc)
  simp only [Procedure.element, holds_children_iff, levelElement, List.forall_mem_append,
    List.forall_mem_cons, List.not_mem_nil, false_imp_iff, implies_true, List.forall_mem_map,
    holds_ofText, holds_operations m, blank, interlocked, flag, modified, capability,
    Procedure.texts, Procedure.values, true_and, and_true]
  exact and_assoc.symm

end Rendering

end FieldProcedure
