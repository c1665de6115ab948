import FieldProcedure.Failure
import FieldProcedure.Number.Decimal
import FieldProcedure.Step.Basic
import FieldProcedure.Text.Split

/-! Rows of a table as flat steps. Lists in a cell are parted by semicolons; a path is a label and a
target parted by the last colon, an entry of the configuration a key and a value parted by the
first. -/
namespace FieldProcedure.Intake

structure Row where
  id : Option String := none
  index : String := ""
  title : Option String := none
  description : Option String := none
  tag : Option String := none
  kind : Option String := none
  paths : Option String := none
  options : Option String := none
  config : Option String := none
  parent : Option String := none
deriving DecidableEq, Repr, Inhabited

def notInteger : String := "expected an integer"

def outOfRange : String := "out of range"

/-- The integer that a text without blanks around it writes: a whole number of 64 bits as it stands,
and any other decimal literal through the nearest double. -/
def integerOf (cs : List Char) : Except String Int :=
  let exact := (Number.readInt? cs).filter Number.isSigned64
  match exact with
  | some n => .ok n
  | none =>
    match ((Number.Literal.read? cs).bind (·.toBinary64)).bind (·.toInt?) with
    | none => .error notInteger
    | some n => if Number.isSigned64 n then .ok n else .error outOfRange

def parseInteger (record : Nat) (column cell : String) : Except InputError Int :=
  match integerOf (Text.strip cell.toList) with
  | .ok n => .ok n
  | .error reason => .error (.cell record column cell reason)

def items (cell : String) : List (List Char) :=
  ((Text.splitAll ';' cell.toList).map Text.strip).filter (!·.isEmpty)

def parsePath (record : Nat) (item : List Char) : Except InputError Path := do
  let (label, target) := (Text.splitLast? ':' item).getD ([], item)
  let target ← parseInteger record "DecisionPaths" (String.ofList target)
  return ⟨target, String.ofList (Text.strip label)⟩

def parsePaths (record : Nat) : List (List Char) → Except InputError (List Path)
  | [] => .ok []
  | item :: rest => do
    let path ← parsePath record item
    let paths ← parsePaths record rest
    return path :: paths

def parseConfig (record : Nat) (config : Config) : List (List Char) → Except InputError Config
  | [] => .ok config
  | item :: rest =>
    match Text.splitFirst? ':' item with
    | none => .error (.cell record "Config" (String.ofList item) "expected 'key:value'")
    | some (key, value) =>
      parseConfig record
        (config.insert (String.ofList key) (String.ofList (Text.strip value))) rest

def filled (cell : Option String) : Option String := cell.filter (!Text.isAllBlank ·)

namespace Row

def entry (r : Row) (record : Nat) : Except InputError Entry := do
  let index ← parseInteger record "StepIndex" r.index
  let parent ← match filled r.parent with
    | some cell => some <$> parseInteger record "Parent" cell
    | none => pure none
  let paths ← parsePaths record ((filled r.paths).map items |>.getD [])
  let config ← parseConfig record {} ((filled r.config).map items |>.getD [])
  return {
    step := {
      id := filled r.id
      index
      title := r.title.getD ""
      description := r.description.getD ""
      tag := r.tag.getD ""
      kind := (r.kind.map Kind.ofName).getD .instruction
      paths
      options := ((r.options.map items).getD []).map String.ofList
      config }
    parent }

end Row
end FieldProcedure.Intake
