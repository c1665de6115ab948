import FieldProcedure.Text.Blank
import FieldProcedure.Text.Lowercase

/-! The kinds of step that an author can ask for. A kind is read from its name whatever the case and
the blanks around it, and a name of no kind asks for an instruction. -/
namespace FieldProcedure

inductive Kind
  | instruction | text | numeric | photo | video | signature | barcode | selection | decision
  | group | dateTime | start | finish
deriving DecidableEq, Repr, Inhabited

namespace Kind

def all : List Kind :=
  [.instruction, .text, .numeric, .photo, .video, .signature, .barcode, .selection, .decision,
    .group, .dateTime, .start, .finish]

def name : Kind → String
  | .instruction => "instruction"
  | .text => "text"
  | .numeric => "numeric"
  | .photo => "photo"
  | .video => "video"
  | .signature => "signature"
  | .barcode => "barcode"
  | .selection => "selection"
  | .decision => "decision"
  | .group => "group"
  | .dateTime => "datetime"
  | .start => "start"
  | .finish => "end"

def ofName (s : String) : Kind :=
  let key := Text.lower (Text.trim s)
  (all.find? (·.name == key)).getD .instruction

end Kind
end FieldProcedure
