/-! Everything that can go wrong, by cause, and the one place where it is put into words. -/
namespace FieldProcedure

inductive InputError
  | table (record : Nat) (message : String)
  | cell (record : Nat) (column value reason : String)
  | json (message : String)
  | file (path message : String)
deriving DecidableEq, Repr

inductive CompileError
  | duplicateIndex (index : Int)
  | reservedIndex (index : Int)
  | duplicateId (id : String)
  | unresolvedParent (index parent : Int)
  | parentCycle (index parent : Int)
  | unresolvedTarget (index target : Int)
  | missingSource (index : Int)
  | idsExhausted (last : String)
deriving DecidableEq, Repr

structure WriteError where
  reason : String
deriving DecidableEq, Repr

inductive Failure
  | input (e : InputError)
  | compile (e : CompileError)
  | write (e : WriteError)
deriving DecidableEq, Repr

def InputError.message : InputError → String
  | .table record message =>
    "Failed to read tabular input at record " ++ toString record ++ ": " ++ message
  | .cell record column value reason =>
    "Invalid value '" ++ value ++ "' in column '" ++ column ++ "' of record " ++ toString record ++
      ": " ++ reason
  | .json message => "Failed to parse workflow JSON: " ++ message
  | .file path message => "Could not read '" ++ path ++ "': " ++ message

def CompileError.message : CompileError → String
  | .duplicateIndex index =>
    "Step index " ++ toString index ++ " appears more than once within the same group"
  | .reservedIndex index =>
    "Step index " ++ toString index ++ " is reserved for the implicit start/end steps"
  | .duplicateId id => "Step id '" ++ id ++ "' is used by more than one step"
  | .unresolvedParent index parent =>
    "Step " ++ toString index ++ " references parent " ++ toString parent ++
      ", which does not exist"
  | .parentCycle index parent =>
    "Step " ++ toString index ++ " references parent " ++ toString parent ++
      ", which never reaches a top-level step"
  | .unresolvedTarget index target =>
    "Step " ++ toString index ++ " has a decision path to " ++ toString target ++
      ", which is not a step in the same group"
  | .missingSource index =>
    "Selection step " ++ toString index ++ " is dynamic but has no source URL in its options"
  | .idsExhausted last =>
    "Identifier allocator keeps returning ids already in use (last: '" ++ last ++ "')"

def WriteError.message (e : WriteError) : String := "Failed to write document: " ++ e.reason

def Failure.message : Failure → String
  | .input e => e.message
  | .compile e => e.message
  | .write e => e.message

/-- A failure that the author of the input can mend. -/
def Failure.isAuthors : Failure → Bool
  | .input _ | .compile _ => true
  | .write _ => false

end FieldProcedure
