import FieldProcedure.CommandLine.Help
import FieldProcedure.Intake.Nested
import FieldProcedure.Intake.Sheet
import FieldProcedure.Procedure

/-! One run of the program, as a function of its arguments and of the world around it. Whatever
fails before the document is rendered leaves no trace but a report. -/
namespace FieldProcedure.CommandLine
open Intake (Received)
open Text.Utf8 (encode)

inductive Found
  | missing (reason : String)
  | opened (input : Received)
deriving DecidableEq, Repr

/-- What becomes of a text that is sent to a place: it is accepted as a whole, the place cannot be
opened, or it is open when the writing fails, and these octets are in it then. -/
inductive Receipt
  | accepted
  | unopened (reason : String)
  | brokenOff (arrived : List UInt8) (reason : String)
deriving DecidableEq, Repr

/-- Places are named by paths. A hyphen is standard input or standard output. -/
structure World where
  look : String → Found
  receive : String → String → Receipt
  /-- What is said of structured input that breaks off after these octets, for this reason. -/
  complaint : List UInt8 → String → String
  supply : Supply
  now : Timestamp

structure Outcome where
  exit : Nat
  stdout : List UInt8 := []
  report : Option String := none
  /-- The one file that was opened for writing, and all that is in it now. -/
  written : Option (String × List UInt8) := none
deriving DecidableEq, Repr

def Outcome.ofFailure (f : Failure) : Outcome :=
  if f.isAuthors then { exit := 2, report := some ("Rejected input: " ++ f.message) }
  else { exit := 1, report := some ("Error: " ++ f.message) }

namespace Invocation

variable (i : Invocation) (world : World)

def workflow : Except Failure Workflow :=
  match i.source, world.look i.path with
  | _, .missing reason => .error (.input (.file i.path reason))
  | .table, .opened input => do
    let sheet ← (Intake.Sheet.read input i.title i.description).mapError Failure.input
    sheet.workflow
  | .json, .opened ⟨octets, none⟩ =>
    (Intake.workflowOfJson .stream octets).mapError Failure.input
  | .json, .opened ⟨octets, some reason⟩ => .error (.input (.json (world.complaint octets reason)))

def settings : Settings where
  supply := if i.sequential then .sequential "id" else world.supply
  modified := world.now

def rendered (p : Procedure) : String :=
  match i.rendering with
  | .xml => p.xml
  | .json => p.json

def produce : Except Failure String := do
  let w ← i.workflow world
  let p ← (w.compile (i.settings world)).mapError Failure.compile
  return i.rendered p

def writeFailure (reason : String) : Failure := .write ⟨"'" ++ i.output ++ "': " ++ reason⟩

def leaving (octets : List UInt8) (o : Outcome) : Outcome :=
  if i.output = "-" then { o with stdout := octets }
  else { o with written := some (i.output, octets) }

def deliver (text : String) : Outcome :=
  match world.receive i.output text with
  | .accepted => i.leaving (encode text) { exit := 0 }
  | .unopened reason => .ofFailure (i.writeFailure reason)
  | .brokenOff arrived reason => i.leaving arrived (.ofFailure (i.writeFailure reason))

def run : Outcome :=
  match i.produce world with
  | .ok text => i.deliver world text
  | .error f => .ofFailure f

end Invocation

def run (args : List String) (world : World) : Outcome :=
  match Request.ofArguments args with
  | .run i => i.run world
  | .help topic => { exit := 0, stdout := encode (helpText topic) }
  | .version => { exit := 0, stdout := encode versionText }
  | .unusable => { exit := 2 }

end FieldProcedure.CommandLine
