import FieldProcedure.Operation
import FieldProcedure.Markup.Element

/-! Operations as elements of a procedure document. Optional parts are left out when they are empty;
the connections stand twice, with their ends and as anchors of the drawing. -/
namespace FieldProcedure.Rendering

open Markup (Element)

def boolText (b : Bool) : String := if b then "true" else "false"

def linkElement (l : Link) : Element where
  name := "Connection"
  attributes := [("Type", l.label), ("ID", l.id), ("Source", l.source), ("Sink", l.sink)]

def anchorElement (l : Link) : Element where
  name := "Connection"
  attributes := [("ID", l.id), ("Anchor", "Bottom|Top")]

def holding (name : String) (children : List Element) : List Element :=
  if children.isEmpty then [] else [{ name, children }]

def designerElement (b : Base) : Element where
  name := "DesignerData"
  children :=
    [.ofText "Position" ("50," ++ toString (100 * (1 + b.position))), .ofText "Size" "0,0"] ++
      holding "ConnectionAnchors" (b.links.map anchorElement)

def baseElement (b : Base) : Element where
  name := "Base"
  attributes := [("ID", b.id)]
  children :=
    [.ofText "Title" b.title, .ofText "Description" b.description] ++
      (b.tag.toList.map (Element.ofText "Tag")) ++
      holding "Connections" (b.links.map linkElement) ++ [designerElement b]

def constraintElement : Constraint → Element
  | .unconstrained => { name := "Constraint", children := [.ofText "ConstraintType" "None"] }
  | .dateTime =>
    { name := "Constraint"
      children := [.ofText "DisplayDate" "true", .ofText "DisplayTime" "true"] }
  | .selection choices fixedMode least most =>
    { name := "Constraint"
      children := [
        { name := "Choices", children := choices.map (Element.ofText "Choice") },
        .ofText "FixedMode" (boolText fixedMode),
        .ofText "MinSelection" (toString least),
        .ofText "MaxSelection" (toString most)] }

def inputElements (i : Input) : List Element :=
  [.ofText "InputType" i.type.name, .ofText "IsOptional" (boolText i.isOptional)] ++
    i.dynamicUrl.toList.map (Element.ofText "DynamicUrl") ++
    [{ name := "InputParameter", children := [constraintElement i.constraint] }]

def actElements : Act → List Element
  | .input i => inputElements i
  | _ => []

mutual
def operationElement : Operation → Element
  | .simple base act =>
    { name := "Step"
      attributes := [("Type", act.typeName)]
      children := baseElement base :: actElements act }
  | .group base isForm level =>
    { name := "Step"
      attributes := [("Type", "GroupStep"), ("IsReport", boolText isForm)]
      children := [baseElement base, { name := "Steps", children := operationElements level }] }

def operationElements : List Operation → List Element
  | [] => []
  | o :: rest => operationElement o :: operationElements rest
end

def levelElement (level : List Operation) : Element :=
  { name := "Steps", children := operationElements level }

end FieldProcedure.Rendering
