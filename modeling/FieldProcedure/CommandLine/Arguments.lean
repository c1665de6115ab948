/-! Reading the arguments. Options stand before or after the command; a value follows its option or
is attached to it, and begins with a hyphen only if it is attached or is nothing but the hyphen. At
one level no option stands twice, and of two levels the command's own wins. -/
namespace FieldProcedure.CommandLine

inductive Source
  | table | json
deriving DecidableEq, Repr

inductive Rendering
  | xml | json
deriving DecidableEq, Repr

structure Invocation where
  source : Source
  path : String
  title : Option String := none
  description : Option String := none
  output : String := "workflow.xml"
  rendering : Rendering := .xml
  sequential : Bool := false
deriving DecidableEq, Repr

inductive Topic
  | program | command (source : Source) | help
deriving DecidableEq, Repr

inductive Request
  | run (invocation : Invocation)
  | help (topic : Topic)
  | version
  | unusable
deriving DecidableEq, Repr

inductive OptionName
  | output | rendering | title | description | sequential | debug | help | version
deriving DecidableEq, Repr

inductive Argument
  | word (s : String)
  | long (name : String) (value : Option String)
  | short (letter : Char) (attached : Option String)
  | endOfOptions
deriving DecidableEq, Repr

namespace Argument

def splitValue : List Char → List Char × Option String
  | [] => ([], none)
  | '=' :: rest => ([], some (String.ofList rest))
  | c :: rest =>
    let (name, value) := splitValue rest
    (c :: name, value)

def attachedValue : List Char → Option String
  | [] => none
  | '=' :: rest => some (String.ofList rest)
  | rest => some (String.ofList rest)

def ofString (s : String) : Argument :=
  match s.toList with
  | ['-', '-'] => .endOfOptions
  | '-' :: '-' :: rest =>
    let (name, value) := splitValue rest
    .long (String.ofList name) value
  | '-' :: letter :: rest => .short letter (attachedValue rest)
  | _ => .word s

end Argument

structure Given where
  output : Option String := none
  rendering : Option Rendering := none
  title : Option String := none
  description : Option String := none
  sequential : Bool := false
  debug : Bool := false
  path : Option String := none
deriving DecidableEq, Repr

def Topic.ofCommand : Option Source → Topic
  | none => .program
  | some source => .command source

def optionOf? (command : Option Source) (name : String) : Option OptionName :=
  match name with
  | "output" => some .output
  | "format" => some .rendering
  | "sequential-ids" => some .sequential
  | "debug" => some .debug
  | "help" => some .help
  | "version" => if command.isNone then some .version else none
  | "title" => if command = some .table then some .title else none
  | "description" => if command = some .table then some .description else none
  | _ => none

def letterOf? (command : Option Source) (letter : Char) : Option OptionName :=
  match letter with
  | 'o' => some .output
  | 'f' => some .rendering
  | 'h' => some .help
  | 'V' => if command.isNone then some .version else none
  | _ => none

def OptionName.takesValue : OptionName → Bool
  | .output | .rendering | .title | .description => true
  | .sequential | .debug | .help | .version => false

def renderingOf? (s : String) : Option Rendering :=
  if s = "xml" then some .xml else if s = "json" then some .json else none

namespace Given

def setValue? (g : Given) (name : OptionName) (value : String) : Option Given :=
  match name with
  | .output => if g.output.isSome then none else some { g with output := some value }
  | .rendering =>
    if g.rendering.isSome then none
    else (renderingOf? value).map fun r => { g with rendering := some r }
  | .title => if g.title.isSome then none else some { g with title := some value }
  | .description => if g.description.isSome then none else some { g with description := some value }
  | _ => none

def setFlag? (g : Given) (name : OptionName) : Option Given :=
  match name with
  | .sequential => if g.sequential then none else some { g with sequential := true }
  | .debug => if g.debug then none else some { g with debug := true }
  | _ => none

def setPath? (g : Given) (path : String) : Option Given :=
  if g.path.isSome then none else some { g with path := some path }

end Given

/-- Why the reading of a level ends: all is read, a command follows, or a request is complete.
Before a command nothing is given if the value just before it is refused. -/
inductive Stop
  | finished (given : Given)
  | command (given : Option Given) (name : String) (rest : List String)
  | request (r : Request)

def readPaths (given : Given) : List String → Stop
  | [] => .finished given
  | path :: rest =>
    match given.setPath? path with
    | some given => readPaths given rest
    | none => .request .unusable

/-- What follows a refused value. A command that comes next is read all the same, since it may ask
for help. -/
def afterRefusal (command : Option Source) : List String → Stop
  | [] => .request .unusable
  | arg :: rest =>
    match command, Argument.ofString arg with
    | none, .word name => .command none name rest
    | _, _ => .request .unusable

def readLevel (command : Option Source) (given : Given) : List String → Stop
  | [] => .finished given
  | arg :: rest =>
    let option? : Option (OptionName × Option String) :=
      match Argument.ofString arg with
      | .long name value => (optionOf? command name).map fun o => (o, value)
      | .short letter attached =>
        (letterOf? command letter).map fun o => (o, if o.takesValue then attached else none)
      | _ => none
    match Argument.ofString arg, option? with
    | .endOfOptions, _ =>
      if command.isSome then readPaths given rest
      else if rest.isEmpty then .finished given else .request .unusable
    | .word s, _ =>
      if command.isNone then .command (some given) s rest
      else match given.setPath? s with
        | some given => readLevel command given rest
        | none => .request .unusable
    | _, none => .request .unusable
    | _, some (.help, value) =>
      .request (if value.isNone then .help (Topic.ofCommand command) else .unusable)
    | _, some (.version, value) => .request (if value.isNone then .version else .unusable)
    | _, some (o, some value) =>
      match if o.takesValue then given.setValue? o value else none with
      | some given => readLevel command given rest
      | none => .request .unusable
    | _, some (o, none) =>
      if o.takesValue then
        match rest with
        | [] => .request .unusable
        | value :: rest =>
          match Argument.ofString value, given.setValue? o value with
          | .word _, some given => readLevel command given rest
          | .word _, none => afterRefusal command rest
          | _, _ => .request .unusable
      else match given.setFlag? o with
        | some given => readLevel command given rest
        | none => .request .unusable

def helpOn : List String → Request
  | [] => .help .program
  | ["csv"] => .help (.command .table)
  | ["json"] => .help (.command .json)
  | ["help"] => .help .help
  | _ => .unusable

def sourceOf? (name : String) : Option Source :=
  if name = "csv" then some .table else if name = "json" then some .json else none

def invocation (source : Source) (path : String) (outer inner : Given) : Invocation where
  source
  path
  title := inner.title
  description := inner.description
  output := (inner.output.or outer.output).getD "workflow.xml"
  rendering := (inner.rendering.or outer.rendering).getD .xml
  sequential := inner.sequential || outer.sequential

def Request.ofArguments (args : List String) : Request :=
  match readLevel none {} args with
  | .request r => r
  | .finished _ => .unusable
  | .command outer name rest =>
    if name = "help" then helpOn rest
    else match sourceOf? name with
      | none => .unusable
      | some source =>
        match readLevel (some source) {} rest with
        | .request r => r
        | .command .. => .unusable
        | .finished inner =>
          match outer, inner.path with
          | some outer, some path => .run (invocation source path outer inner)
          | _, _ => .unusable

end FieldProcedure.CommandLine
