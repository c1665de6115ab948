import FieldProcedure.Intake.Record
import FieldProcedure.Intake.Row
import FieldProcedure.Outline

/-! Tables: a header record that names the columns, and a row for every other record. All records
have as many fields as the header. A header that is no text names nothing, and its table's columns
are taken in their own order. -/
namespace FieldProcedure.Intake

inductive Column
  | id | index | title | description | tag | kind | paths | options | config | parent
deriving DecidableEq, Repr

namespace Column

def all : List Column :=
  [.id, .index, .title, .description, .tag, .kind, .paths, .options, .config, .parent]

def name : Column → String
  | .id => "StepId"
  | .index => "StepIndex"
  | .title => "StepTitle"
  | .description => "StepDescription"
  | .tag => "StepTag"
  | .kind => "StepType"
  | .paths => "DecisionPaths"
  | .options => "SelectionOptions"
  | .config => "Config"
  | .parent => "Parent"

def ofName? (s : String) : Option Column := all.find? (·.name == s)

end Column

def Row.set (r : Row) (column : Column) (cell : String) : Row :=
  let cell? := if cell.isEmpty then none else some cell
  match column with
  | .id => { r with id := cell? }
  | .index => { r with index := cell }
  | .title => { r with title := cell? }
  | .description => { r with description := cell? }
  | .tag => { r with tag := cell? }
  | .kind => { r with kind := cell? }
  | .paths => { r with paths := cell? }
  | .options => { r with options := cell? }
  | .config => { r with config := cell? }
  | .parent => { r with parent := cell? }

namespace Sheet

inductive Fault
  | unequalLengths (length expected : Nat)
  | undecodable (field valid : Nat)
  | duplicateColumn (column : Column)
  | missingColumn (column : Column)
  | tooShort (length : Nat)
deriving DecidableEq, Repr

def Fault.message (mark : Mark) (f : Fault) : String :=
  let record := "record " ++ toString mark.record
  let place :=
    record ++ " (line: " ++ toString mark.line ++ ", byte: " ++ toString mark.octet ++ "): "
  match f with
  | .unequalLengths length expected =>
    "CSV error: " ++ place ++ "found record with " ++ toString length ++
      " fields, but the previous record has " ++ toString expected ++ " fields"
  | .undecodable field valid =>
    "CSV parse error: " ++ record ++ " (line " ++ toString mark.line ++ ", field: " ++
      toString field ++ ", byte: " ++ toString mark.octet ++
      "): invalid utf-8: invalid UTF-8 in field " ++ toString field ++ " near byte index " ++
      toString valid
  | .duplicateColumn column =>
    "CSV deserialize error: " ++ place ++ "duplicate field `" ++ column.name ++ "`"
  | .missingColumn column =>
    "CSV deserialize error: " ++ place ++ "missing field `" ++ column.name ++ "`"
  | .tooShort length =>
    "CSV deserialize error: " ++ place ++ "invalid length " ++ toString length ++
      ", expected struct StepRow with " ++ toString Column.all.length ++ " elements"

/-- The column of each field, where the header names one, or nothing if the header is no text. -/
abbrev Layout := Option (List (Option Column))

def layout (header : Record) : Layout :=
  match header.decode with
  | .ok names => some (names.map fun s => Column.ofName? (Text.trim s))
  | .error _ => none

def fillNamed (seen : List Column) (row : Row) :
    List (Option Column × String) → Except Fault (List Column × Row)
  | [] => .ok (seen, row)
  | (none, _) :: rest => fillNamed seen row rest
  | (some column, cell) :: rest =>
    if column ∈ seen then .error (.duplicateColumn column)
    else fillNamed (column :: seen) (row.set column cell) rest

def rowOf (layout : Layout) (cells : List String) : Except Fault Row :=
  match layout with
  | some columns => do
    let (seen, row) ← fillNamed [] {} (columns.zip cells)
    if .index ∈ seen then return row else throw (.missingColumn .index)
  | none =>
    if cells.length < 2 then .error (.tooShort cells.length)
    else .ok ((Column.all.zip cells).foldl (fun row (column, cell) => row.set column cell) {})

def readRecord (layout : Layout) (width : Nat) (r : Record) : Except Fault Row :=
  if r.fields.length ≠ width then .error (.unequalLengths r.fields.length width)
  else match r.decode with
    | .error (field, valid) => .error (.undecodable field valid)
    | .ok cells => rowOf layout (cells.map Text.trim)

def readRecords (layout : Layout) (width : Nat) : List Record → Except InputError (List Row)
  | [] => .ok []
  | r :: rest =>
    match readRecord layout width r with
    | .error fault => .error (.table r.mark.record (fault.message r.mark))
    | .ok row => (readRecords layout width rest).map (row :: ·)

/-- The rows of the records, unless one is at fault or the source breaks off after them. A source
that breaks off in its header has not begun a table, and is taken for one without rows. -/
def readRows (input : Received) : Except InputError (List Row) :=
  match Record.readAll input with
  | [] => .ok []
  | header :: rest => do
    let rows ← readRecords (layout header) header.fields.length rest
    match input.failure with
    | none => return rows
    | some reason => throw (.table 0 reason)

end Sheet

structure Sheet where
  title : String := ""
  description : Option String := none
  rows : List Row
deriving Repr, Inhabited

namespace Sheet

def read (input : Received) (title description : Option String) : Except InputError Sheet :=
  return { title := title.getD "", description, rows := ← readRows input }

def entriesFrom (record : Nat) : List Row → Except InputError (List Entry)
  | [] => .ok []
  | r :: rest => do
    let e ← r.entry record
    let more ← entriesFrom (record + 1) rest
    return e :: more

def entries (s : Sheet) : Except InputError (List Entry) := entriesFrom 1 s.rows

def workflow (s : Sheet) : Except Failure Workflow := do
  let entries ← s.entries.mapError Failure.input
  let steps ← (Outline.forest entries).mapError Failure.compile
  return { title := s.title, description := s.description, steps }

end Sheet
end FieldProcedure.Intake
