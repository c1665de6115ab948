import FieldProcedure.Operation

/-! Compiling a level into operations, and the levels of its groups after their own ids are drawn.
-/
namespace FieldProcedure
namespace Compilation

def typedInput (s : Step) (type : InputType) (constraint : Constraint) : Act :=
  .input { type, isOptional := s.config.flag "optional" false, constraint }

/-- A selection offers its options that are not blank. A dynamic one takes the first of them as the
source of its choices and offers none itself. -/
def selection (s : Step) : Except CompileError Act :=
  let options := s.options.filterMap Text.trimmed?
  let most := if s.config.flag "multi" false then max options.length 1 else 1
  let input (url : Option String) (choices : List String) : Act := .input {
    type := .selection
    isOptional := s.config.flag "optional" false
    dynamicUrl := url
    constraint := .selection choices (s.config.flag "fixed" true) 1 most }
  if s.config.flag "dynamic" false then
    match options with
    | [] => .error (.missingSource s.index)
    | url :: _ => .ok (input (some url) [])
  else .ok (input none options)

/-- What a step asks of its operator. The answer for a group is never used. -/
def act (s : Step) : Except CompileError Act :=
  match s.kind with
  | .instruction | .group => .ok .confirm
  | .text => .ok (typedInput s .text .unconstrained)
  | .numeric => .ok (typedInput s .numeric .unconstrained)
  | .photo => .ok (typedInput s .photo .unconstrained)
  | .video => .ok (typedInput s .video .unconstrained)
  | .signature => .ok (typedInput s .signature .unconstrained)
  | .barcode => .ok (typedInput s .barcode .unconstrained)
  | .dateTime => .ok (typedInput s .dateTime .dateTime)
  | .selection => selection s
  | .decision => .ok .decision
  | .start => .ok .start
  | .finish => .ok .terminate

def base (w : Wired) : Base where
  id := w.id
  title := w.step.title
  description := if w.step.kind = .start then "" else w.step.description
  tag := if w.step.kind = .start || Text.isAllBlank w.step.tag then none else some w.step.tag
  links := if w.step.kind = .finish then [] else w.links
  position := w.position

def simple (w : Wired) : Drawing Operation :=
  match act w.step with
  | .ok a => pure (.simple (base w) a)
  | .error e => throw e

/-- Wires a level and compiles it in order: the step that opens it, then what `inner` makes of the
wired steps after that one. -/
def inFrame (level : List Step) (inner : List Wired → Drawing (List Operation)) :
    Drawing (List Operation) := do
  match ← wire level with
  | [] => pure []
  | w :: rest => do
    let first ← simple w
    let others ← inner rest
    pure (first :: others)

def simpleAll : List Wired → Drawing (List Operation)
  | [] => pure []
  | w :: rest => do
    let o ← simple w
    let os ← simpleAll rest
    pure (o :: os)

mutual
def compileStep : Step → Wired → Drawing Operation
  | ⟨_, _, _, _, _, kind, _, _, config, children⟩, w =>
    if kind = .group then do
      let level ← inFrame children (compileSteps children)
      pure (.group (base w) (config.flag "form" false) level)
    else simple w

def compileSteps : List Step → List Wired → Drawing (List Operation)
  | s :: steps, w :: rest => do
    let o ← compileStep s w
    let os ← compileSteps steps rest
    pure (o :: os)
  | _, rest => simpleAll rest
end

def compileLevel (level : List Step) : Drawing (List Operation) :=
  inFrame level (compileSteps level)

end Compilation
end FieldProcedure
