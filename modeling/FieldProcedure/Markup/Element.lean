import FieldProcedure.Json.Value

/-! Elements: a name, attributes in the order of their first setting, a text that may be absent, and
children. -/
namespace FieldProcedure.Markup

structure Element where
  name : String
  attributes : List (String × String) := []
  text : Option String := none
  children : List Element := []
deriving Repr, Inhabited

namespace Element

variable (e : Element)

def ofText (name text : String) : Element := { name, text := some text }

def assign (key value : String) : List (String × String) → List (String × String)
  | [] => [(key, value)]
  | (k, v) :: rest => if k = key then (k, value) :: rest else (k, v) :: assign key value rest

def setAttribute (key value : String) : Element :=
  { e with attributes := assign key value e.attributes }

def attribute? (key : String) : Option String := e.attributes.lookup key

def withText (text : String) : Element := { e with text := some text }

def push (child : Element) : Element := { e with children := e.children ++ [child] }

def pushText (name text : String) : Element := e.push (ofText name text)

def content : String := e.text.getD ""

def child? (name : String) : Option Element := e.children.find? (·.name == name)

def childrenNamed (name : String) : List Element := e.children.filter (·.name == name)

def find? (e : Element) : List String → Option Element
  | [] => some e
  | name :: rest => (e.child? name).bind fun c => c.find? rest

def attributeJson (entry : String × String) : Json := .array [.ofText entry.1, .ofText entry.2]

mutual
def toJson : Element → Json
  | ⟨name, attributes, text, children⟩ =>
    .object <|
      [("name", .ofText name)] ++
      (if attributes.isEmpty then []
        else [("attributes", .array (attributes.map attributeJson))]) ++
      (match text with | none => [] | some t => [("text", .ofText t)]) ++
      (if children.isEmpty then [] else [("children", .array (toJsonAll children))])

def toJsonAll : List Element → List Json
  | [] => []
  | e :: rest => e.toJson :: toJsonAll rest
end

end Element
end FieldProcedure.Markup
