import FieldProcedure.Markup.Element

/-! Elements as indented XML. A tag begins a line unless a text precedes it or nothing does, and an
element that has neither text nor children is one tag. The writer hands over its output in
pieces, in order, so that a sink may refuse any of them. -/
namespace FieldProcedure.Markup.Xml

def escapedChar (c : Char) : String :=
  if c = '<' then "&lt;"
  else if c = '>' then "&gt;"
  else if c = '&' then "&amp;"
  else if c = '\'' then "&apos;"
  else if c = '"' then "&quot;"
  else c.toString

def escaped (s : String) : String := String.join (s.toList.map escapedChar)

def attributeText (entry : String × String) : String :=
  " " ++ entry.1 ++ "=\"" ++ escaped entry.2 ++ "\""

def heading (name : String) (attributes : List (String × String)) : String :=
  name ++ String.join (attributes.map attributeText)

def indent (depth : Nat) : List String :=
  ["\n", String.ofList (List.replicate (2 * depth) ' ')]

mutual
def pieces (depth : Nat) (broken : Bool) : Element → List String
  | ⟨name, attributes, none, []⟩ =>
    (if broken then indent depth else []) ++ ["<", heading name attributes, "/>"]
  | ⟨name, attributes, none, children⟩ =>
    (if broken then indent depth else []) ++ ["<", heading name attributes, ">"] ++
      piecesAll (depth + 1) true children ++ indent depth ++ ["</", name, ">"]
  | ⟨name, attributes, some text, []⟩ =>
    (if broken then indent depth else []) ++
      ["<", heading name attributes, ">", escaped text, "</", name, ">"]
  | ⟨name, attributes, some text, children⟩ =>
    (if broken then indent depth else []) ++ ["<", heading name attributes, ">", escaped text] ++
      piecesAll (depth + 1) false children ++ indent depth ++ ["</", name, ">"]

def piecesAll (depth : Nat) (broken : Bool) : List Element → List String
  | [] => []
  | e :: rest => pieces depth broken e ++ piecesAll depth true rest
end

def toText (root : Element) : String := String.join (pieces 0 false root)

end FieldProcedure.Markup.Xml
