import FieldProcedure.Failure
import FieldProcedure.Intake.Fields
import FieldProcedure.Step.Basic

/-! Workflows as JSON: steps hold their sub-steps. Every field but the index of a step or path, and
the title and steps of the workflow, may be missing or null. -/
namespace FieldProcedure.Intake

open Json

def readKind (n : Node) : Except Fault Kind := return .ofName (← readText n)

inductive PathField
  | target | label
deriving DecidableEq, Repr

def pathShape : Shape PathField where
  name := "DecisionPath"
  fields := [.target, .label]
  keys
    | .target => ["stepIndex"]
    | .label => ["decisionName"]
  required f := f = .target

def setPath (f : PathField) (n : Node) (p : Path) : Except Fault Path :=
  match f with
  | .target => return { p with target := ← readInt n }
  | .label => return { p with label := ← readOr "" readText n }

def readPath : Node → Except Fault Path := pathShape.read setPath { target := 0 }

def configText : Json → String
  | .scalar (.text s) => s
  | .scalar .null => ""
  | v => v.compact

/-- The members count in the order of their keys as written, so of several keys that are stored
alike the last in that order wins. -/
def readConfig : Node → Except Fault Config
  | .scalar .null _ => .ok {}
  | .object _ members => do
    let values ← members.values []
    return .ofList (values.map fun (key, v) => (key, configText v))
  | n => .error (n.wrong "a map")

inductive StepField
  | id | index | title | description | tag | kind | paths | options | children | config
deriving DecidableEq, Repr

def stepShape : Shape StepField where
  name := "ImportStep"
  fields := [.id, .index, .title, .description, .tag, .kind, .paths, .options, .children, .config]
  keys
    | .id => ["stepId"]
    | .index => ["stepIndex"]
    | .title => ["stepTitle"]
    | .description => ["stepDescription"]
    | .tag => ["stepTag"]
    | .kind => ["stepType"]
    | .paths => ["decisionPaths"]
    | .options => ["selectionOptions"]
    | .children => ["steps", "children"]
    | .config => ["config"]
  required f := f = .index

def setStep (f : StepField) (n : Node) (s : Step) : Except Fault Step :=
  match f with
  | .id => return { s with id := ← readOr none (fun n => some <$> readText n) n }
  | .index => return { s with index := ← readInt n }
  | .title => return { s with title := ← readOr "" readText n }
  | .description => return { s with description := ← readOr "" readText n }
  | .tag => return { s with tag := ← readOr "" readText n }
  | .kind => return { s with kind := ← readOr .instruction readKind n }
  | .paths => return { s with paths := ← readOr [] (readList readPath) n }
  | .options => return { s with options := ← readOr [] (readList readText) n }
  | .children => return s
  | .config => return { s with config := ← readConfig n }

mutual
def readStep : Node → Except Fault Step
  | .object _ members => readStepMembers [] { index := 0 } members
  | .array _ items => readStepFields { index := 0 } stepShape.fields items
  | .scalar s stop => .error ((Node.scalar s stop).wrong stepShape.expected)
  | .broken fault => .error fault

def readStepMembers (seen : List StepField) (draft : Step) : Members → Except Fault Step
  | .closed stop => do
    stepShape.checkSeen seen stop
    return draft
  | .member key spot value rest =>
    match stepShape.field? key with
    | none => readStepMembers seen draft rest
    | some f =>
      if seen.contains f then .error (stepShape.duplicate f spot)
      else if f = .children then do
        let children ← readChildren value
        readStepMembers (f :: seen) { draft with children } rest
      else do
        let draft ← setStep f value draft
        readStepMembers (f :: seen) draft rest
  | .broken fault => .error fault

def readStepFields (draft : Step) (left : List StepField) : Items → Except Fault Step
  | .closed stop => do
    stepShape.checkLeft left stop
    return draft
  | .item start value rest =>
    match left with
    | [] => .error ⟨.trailingCharacters, start⟩
    | f :: left =>
      if f = .children then do
        let children ← readChildren value
        readStepFields { draft with children } left rest
      else do
        let draft ← setStep f value draft
        readStepFields draft left rest
  | .broken fault =>
    if left.isEmpty then do
      listEnd (.broken fault)
      return draft
    else .error fault

def readChildren : Node → Except Fault (List Step)
  | .scalar .null _ => .ok []
  | .array _ items => readSteps items
  | .scalar s stop => .error ((Node.scalar s stop).wrong "a sequence")
  | .object start members => .error ((Node.object start members).wrong "a sequence")
  | .broken fault => .error fault

def readSteps : Items → Except Fault (List Step)
  | .closed _ => .ok []
  | .item _ value rest => do
    let s ← readStep value
    let more ← readSteps rest
    return s :: more
  | .broken fault => .error fault
end

inductive WorkflowField
  | title | description | steps
deriving DecidableEq, Repr

def workflowShape : Shape WorkflowField where
  name := "ImportWorkflow"
  fields := [.title, .description, .steps]
  keys
    | .title => ["workflowTitle"]
    | .description => ["workflowDescription"]
    | .steps => ["workflowSteps"]
  required f := f ≠ .description

def setWorkflow (f : WorkflowField) (n : Node) (w : Workflow) : Except Fault Workflow :=
  match f with
  | .title => return { w with title := ← readText n }
  | .description => return { w with description := ← readOr none (fun n => some <$> readText n) n }
  | .steps => return { w with steps := ← readList readStep n }

def readWorkflow : Node → Except Fault Workflow :=
  workflowShape.read setWorkflow { title := "", steps := [] }

def workflowOfJson (origin : Origin) (octets : List UInt8) : Except InputError Workflow :=
  match (Document.read maxDepth origin octets).decode readWorkflow with
  | .ok w => .ok w
  | .error fault => .error (.json fault.message)

end FieldProcedure.Intake
