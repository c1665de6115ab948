import FieldProcedure.CommandLine.Arguments
import Mathlib.Tactic.Common

/-! The arguments that ask for an invocation. There are some for each, whatever is to be read and
whichever options are set, when every value is attached to its option and the path comes last. -/
namespace FieldProcedure.CommandLine

namespace Argument

end Argument

def assigned (name value : String) : String := "--" ++ name ++ "=" ++ value

section Options

variable {command : Option Source} {given given' : Given} {o : OptionName} {name value : String}
  {rest : List String}

end Options

namespace Invocation

variable (i : Invocation)

def command : String :=
  match i.source with
  | .table => "csv"
  | .json => "json"

def format : String :=
  match i.rendering with
  | .xml => "xml"
  | .json => "json"

def options : List String :=
  [assigned "output" i.output, assigned "format" i.format] ++
    (if i.sequential then ["--sequential-ids"] else []) ++
    (i.title.map (assigned "title")).toList ++ (i.description.map (assigned "description")).toList

end Invocation

end FieldProcedure.CommandLine
