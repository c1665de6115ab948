import FieldProcedure.Failure
import FieldProcedure.Markup.Xml
import FieldProcedure.Text.Utf8

/-! Writing XML to a sink that may refuse. The writer goes through the tree tag by tag and hands
over one piece after the other; it keeps how deep it stands and whether the next tag begins a line. The
first refusal ends it, at whatever depth. -/
namespace FieldProcedure.Markup

variable {σ : Type}

/-- What becomes of a sink that is handed some octets, and whether it has taken them all. -/
abbrev Sink (σ : Type) := List UInt8 → σ → Except WriteError Unit × σ

inductive Event
  | opening (heading : String)
  | single (heading : String)
  | closing (name : String)
  | text (content : String)

structure Layout where
  depth : Nat := 0
  broken : Bool := false

/-- A computation that writes to a sink. What was taken stays taken when it fails. -/
abbrev Writing (σ : Type) := ExceptT WriteError (StateM (σ × Layout))

namespace Writing

variable (sink : Sink σ)

def put (piece : String) : Writing σ Unit := .mk fun (s, layout) =>
  let (answer, s) := sink (Text.Utf8.encode piece) s
  (answer, s, layout)

def putAll : List String → Writing σ Unit
  | [] => pure ()
  | piece :: rest => do
    put sink piece
    putAll rest

def layout : Writing σ Layout := return (← get).2

def setLayout (layout : Layout) : Writing σ Unit := modify fun (s, _) => (s, layout)

def tag (front heading back : String) : Writing σ Unit := do
  let here ← layout
  if here.broken then putAll sink (Xml.indent here.depth)
  putAll sink [front, heading, back]

def emit : Event → Writing σ Unit
  | .opening heading => do
    tag sink "<" heading ">"
    let here ← layout
    setLayout ⟨here.depth + 1, true⟩
  | .single heading => do
    tag sink "<" heading "/>"
    let here ← layout
    setLayout ⟨here.depth, true⟩
  | .closing name => do
    let here ← layout
    setLayout ⟨here.depth - 1, here.broken⟩
    tag sink "</" name ">"
    setLayout ⟨here.depth - 1, true⟩
  | .text content => do
    put sink (Xml.escaped content)
    let here ← layout
    setLayout ⟨here.depth, false⟩

def content : Option String → Writing σ Unit
  | none => pure ()
  | some text => emit sink (.text text)

mutual
def element : Element → Writing σ Unit
  | ⟨name, attributes, none, []⟩ => emit sink (.single (Xml.heading name attributes))
  | ⟨name, attributes, text, children⟩ => do
    emit sink (.opening (Xml.heading name attributes))
    content sink text
    elements children
    emit sink (.closing name)

def elements : List Element → Writing σ Unit
  | [] => pure ()
  | e :: rest => do
    element e
    elements rest
end

end Writing

def Xml.writeTo (sink : Sink σ) (root : Element) (s : σ) : Except WriteError Unit × σ :=
  let (answer, s, _) := (Writing.element sink root).run (s, {})
  (answer, s)

structure Limited where
  refusal : String
  room : Nat
  taken : Array UInt8 := #[]

def Limited.take : Sink Limited := fun octets l =>
  (if octets.length ≤ l.room then .ok () else .error ⟨l.refusal⟩,
    { l with room := l.room - octets.length, taken := l.taken ++ octets.take l.room })

structure Delivery where
  outcome : Except WriteError Unit
  octets : List UInt8

def Xml.write (root : Element) (refusal : String) (room : Nat) : Delivery :=
  let (outcome, l) := writeTo Limited.take root { refusal, room }
  ⟨outcome, l.taken.toList⟩

end FieldProcedure.Markup
