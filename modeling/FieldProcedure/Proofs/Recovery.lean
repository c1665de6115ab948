import FieldProcedure.Rendering
import Mathlib.Logic.Function.Basic
import Std.Data.String.ToNat

/-! Reading operations back from their elements. What a rendering leaves out is read as empty or
absent, and no two operations leave out the same: the elements of a level determine its operations,
with their connections, positions and inputs, and the levels inside them. -/
namespace FieldProcedure.Rendering

open Markup (Element)

def flag? : String → Option Bool
  | "true" => some true
  | "false" => some false
  | _ => none

def position? (place : String) : Option Nat :=
  (String.ofList (place.toList.drop 3)).toNat?.map (· / 100 - 1)

def inputType? (name : String) : Option InputType :=
  [.text, .numeric, .photo, .video, .signature, .barcode, .dateTime, .selection].find?
    (·.name = name)

def textIn? (name : String) (e : Element) : Option String := (e.child? name).bind (·.text)

def heldIn (name : String) (e : Element) : List Element :=
  ((e.child? name).map (·.children)).getD []

def link? (e : Element) : Option Link := do
  let id ← e.attribute? "ID"
  let source ← e.attribute? "Source"
  let sink ← e.attribute? "Sink"
  let label ← e.attribute? "Type"
  pure { id, source, sink, label }

def base? (e : Element) : Option Base := do
  let id ← e.attribute? "ID"
  let title ← textIn? "Title" e
  let description ← textIn? "Description" e
  let links ← (heldIn "Connections" e).mapM link?
  let place ← (e.child? "DesignerData").bind (textIn? "Position")
  let position ← position? place
  pure { id, title, description, tag := textIn? "Tag" e, links, position }

def selection? (choices constraint : Element) : Option Constraint := do
  let fixedMode ← (textIn? "FixedMode" constraint).bind flag?
  let least ← (textIn? "MinSelection" constraint).bind String.toNat?
  let most ← (textIn? "MaxSelection" constraint).bind String.toNat?
  let choices ← choices.children.mapM (·.text)
  pure (.selection choices fixedMode least most)

def constraint? (e : Element) : Option Constraint :=
  match e.child? "Choices", e.child? "DisplayDate" with
  | some choices, _ => selection? choices e
  | none, some _ => some .dateTime
  | none, none => some .unconstrained

def input? (e : Element) : Option Input := do
  let type ← (textIn? "InputType" e).bind inputType?
  let isOptional ← (textIn? "IsOptional" e).bind flag?
  let constraint ← (e.find? ["InputParameter", "Constraint"]).bind constraint?
  pure { type, isOptional, dynamicUrl := textIn? "DynamicUrl" e, constraint }

def act? (e : Element) : Option Act :=
  match e.attribute? "Type" with
  | some "ConfirmStep" => some .confirm
  | some "StartStep" => some .start
  | some "TerminateGroupStep" => some .terminate
  | some "DecisionStep" => some .decision
  | some "InputStep" => (input? e).map .input
  | _ => none

mutual
def operation? : Element → Option Operation
  | ⟨name, attributes, text, children⟩ => do
    let e : Element := ⟨name, attributes, text, children⟩
    let base ← (e.child? "Base").bind base?
    if e.attribute? "Type" = some "GroupStep" then
      let isForm ← (e.attribute? "IsReport").bind flag?
      let level ← levelIn? children
      pure (.group base isForm level)
    else
      let act ← act? e
      pure (.simple base act)

def levelIn? : List Element → Option (List Operation)
  | [] => none
  | ⟨name, _, _, children⟩ :: rest =>
    if name = "Steps" then operations? children else levelIn? rest

def operations? : List Element → Option (List Operation)
  | [] => some []
  | e :: rest => do
    let o ← operation? e
    let os ← operations? rest
    pure (o :: os)
end

def level? (e : Element) : Option (List Operation) := levelIn? [e]

theorem flag?_boolText (b : Bool) : flag? (boolText b) = some b := by
  cases b <;> rfl

theorem inputType?_name (type : InputType) : inputType? type.name = some type := by
  cases type <;> rfl

theorem position?_place (n : Nat) : position? ("50," ++ toString (100 * (1 + n))) = some n := by
  have digits : ("50," ++ toString (100 * (1 + n))).toList.drop 3 =
      (toString (100 * (1 + n))).toList := by
    rw [String.toList_append]
    rfl
  have number : (toString (100 * (1 + n))).toNat? = some (100 * (1 + n)) := Nat.toNat?_repr _
  have row : 100 * (1 + n) / 100 - 1 = n := by omega
  rw [position?, digits, String.ofList_toList, number, Option.map_some, row]

theorem mapM_map_eq_some {α β : Type} {f : α → β} {g : β → Option α} (h : ∀ a, g (f a) = some a)
    (l : List α) : (l.map f).mapM g = some l := by
  induction l with
  | nil => rfl
  | cons a rest ih => simp [h, ih]

theorem link?_linkElement (l : Link) : link? (linkElement l) = some l := rfl

theorem base_parts (b : Base) : textIn? "Tag" (baseElement b) = b.tag ∧
    heldIn "Connections" (baseElement b) = b.links.map linkElement ∧
    (baseElement b).child? "DesignerData" = some (designerElement b) := by
  obtain ⟨id, title, description, tag, links, position⟩ := b
  cases tag <;> cases links <;> exact ⟨rfl, rfl, rfl⟩

theorem base?_baseElement (b : Base) : base? (baseElement b) = some b := by
  obtain ⟨tag, connections, designer⟩ := base_parts b
  have id : (baseElement b).attribute? "ID" = some b.id := rfl
  have title : textIn? "Title" (baseElement b) = some b.title := rfl
  have description : textIn? "Description" (baseElement b) = some b.description := rfl
  have place : textIn? "Position" (designerElement b) =
      some ("50," ++ toString (100 * (1 + b.position))) := rfl
  have links : (b.links.map linkElement).mapM link? = some b.links :=
    mapM_map_eq_some link?_linkElement b.links
  simp only [base?, id, title, description, tag, connections, links, designer, place,
    position?_place, Option.bind_eq_bind, Option.bind_some, Option.pure_def]

theorem constraint?_constraintElement (c : Constraint) :
    constraint? (constraintElement c) = some c := by
  cases c with
  | unconstrained => rfl
  | dateTime => rfl
  | selection choices fixedMode least most =>
    have offered := mapM_map_eq_some (f := Element.ofText "Choice") (g := (·.text)) (fun _ => rfl)
      choices
    simp [constraint?, constraintElement, selection?, textIn?, Element.child?, Element.ofText,
      flag?_boolText, offered]

theorem input?_inputElements (i : Input) (base : Base) :
    input? ⟨"Step", [("Type", "InputStep")], none, baseElement base :: inputElements i⟩ =
      some i := by
  obtain ⟨type, isOptional, dynamicUrl, constraint⟩ := i
  have read := constraint?_constraintElement constraint
  have named : (constraintElement constraint).name = "Constraint" := by cases constraint <;> rfl
  cases dynamicUrl <;>
    simp [input?, inputElements, textIn?, Element.find?, Element.child?, Element.ofText,
      baseElement, inputType?_name, flag?_boolText, named, read]

theorem act?_actElements (a : Act) (base : Base) :
    act? ⟨"Step", [("Type", a.typeName)], none, baseElement base :: actElements a⟩ = some a := by
  cases a with
  | input i =>
    have read := input?_inputElements i base
    have type : (⟨"Step", [("Type", "InputStep")], none, baseElement base :: inputElements i⟩ :
        Element).attribute? "Type" = some "InputStep" := rfl
    simp only [act?, actElements, Act.typeName, type, read, Option.map_some]
  | _ => rfl

theorem typeName_ne_group (a : Act) : a.typeName ≠ "GroupStep" := by
  cases a <;> (rw [Act.typeName]; decide)

theorem operation?_eq (e : Element) : operation? e = (do
    let base ← (e.child? "Base").bind base?
    if e.attribute? "Type" = some "GroupStep" then
      let isForm ← (e.attribute? "IsReport").bind flag?
      let level ← levelIn? e.children
      pure (.group base isForm level)
    else
      let act ← act? e
      pure (.simple base act)) := by
  cases e
  rw [operation?]

mutual
theorem operation?_operationElement : ∀ o : Operation, operation? (operationElement o) = some o
  | .simple base act => by
    have hbase : (operationElement (.simple base act)).child? "Base" = some (baseElement base) :=
      rfl
    have htype : (operationElement (.simple base act)).attribute? "Type" = some act.typeName := rfl
    have hact : act? (operationElement (.simple base act)) = some act := act?_actElements act base
    simp [operation?_eq, hbase, htype, hact, base?_baseElement, typeName_ne_group]
  | .group base isForm level => by
    have hbase : (operationElement (.group base isForm level)).child? "Base" =
        some (baseElement base) := rfl
    have htype : (operationElement (.group base isForm level)).attribute? "Type" =
        some "GroupStep" := rfl
    have hform : (operationElement (.group base isForm level)).attribute? "IsReport" =
        some (boolText isForm) := rfl
    have hlevel : levelIn? (operationElement (.group base isForm level)).children = some level :=
      operations?_operationElements level
    simp [operation?_eq, hbase, htype, hform, hlevel, base?_baseElement, flag?_boolText]
theorem operations?_operationElements :
    ∀ level : List Operation, operations? (operationElements level) = some level
  | [] => rfl
  | o :: rest => by
    have here := operation?_operationElement o
    have later := operations?_operationElements rest
    simp [operations?, operationElements, here, later]
end

/-- The operations of a level can be read back from its element, so that two levels with the same
element are the same. -/
theorem level_recovered :
    (∀ level, level? (levelElement level) = some level) ∧ Function.Injective levelElement := by
  have read (level : List Operation) : level? (levelElement level) = some level :=
    operations?_operationElements level
  refine ⟨read, fun first second same => ?_⟩
  apply Option.some.inj
  calc some first = level? (levelElement first) := (read first).symm
    _ = level? (levelElement second) := by rw [same]
    _ = some second := read second

end FieldProcedure.Rendering
