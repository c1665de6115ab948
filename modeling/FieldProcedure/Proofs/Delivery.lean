import FieldProcedure.CommandLine.Run
import FieldProcedure.Proofs.Headers
import FieldProcedure.Proofs.Requests

/-! What a run does to the world, by what it finds there. Input that is turned down, at whichever
stage, costs a report and nothing else: standard output stays empty and no file is written. Input
that makes a procedure has it rendered to the place that the arguments name and to no other. A table
that breaks off in its header is not among the former: it is taken for one without rows. -/
namespace FieldProcedure.CommandLine
open Intake
open Text.Utf8 (encode)

namespace Invocation

variable (i : Invocation) (world : World)

def Tabulates (sheet : Sheet) : Prop :=
  i.source = .table ∧ ∃ input, world.look i.path = .opened input ∧
    Sheet.read input i.title i.description = .ok sheet

inductive Holds : Workflow → Prop
  | table {sheet : Sheet} {entries : List Entry} {steps : List Step} :
    i.Tabulates world sheet → sheet.entries = .ok entries → Outline.forest entries = .ok steps →
    Holds ⟨sheet.title, sheet.description, steps⟩
  | json {octets : List UInt8} {w : Workflow} :
    i.source = .json → world.look i.path = .opened ⟨octets, none⟩ →
    workflowOfJson .stream octets = .ok w → Holds w

/-- The input holds no workflow, for this reason: it is not there, its text breaks off or is not
understood, or its rows do not form trees. -/
inductive Lacks : Failure → Prop
  | file {reason : String} :
    world.look i.path = .missing reason → Lacks (.input (.file i.path reason))
  | text {octets : List UInt8} {reason : String} :
    i.source = .json → world.look i.path = .opened ⟨octets, some reason⟩ →
    Lacks (.input (.json (world.complaint octets reason)))
  | json {octets : List UInt8} {e : InputError} :
    i.source = .json → world.look i.path = .opened ⟨octets, none⟩ →
    workflowOfJson .stream octets = .error e → Lacks (.input e)
  | table {input : Received} {e : InputError} :
    i.source = .table → world.look i.path = .opened input →
    Sheet.read input i.title i.description = .error e → Lacks (.input e)
  | cell {sheet : Sheet} {e : InputError} :
    i.Tabulates world sheet → sheet.entries = .error e → Lacks (.input e)
  | trees {sheet : Sheet} {entries : List Entry} {e : CompileError} :
    i.Tabulates world sheet → sheet.entries = .ok entries →
    Outline.forest entries = .error e → Lacks (.compile e)

inductive TurnsDown : Failure → Prop
  | reading {f : Failure} : i.Lacks world f → TurnsDown f
  | compiling {w : Workflow} {e : CompileError} :
    i.Holds world w → w.compile (i.settings world) = .error e → TurnsDown (.compile e)

variable {i world} {w : Workflow} {f : Failure}

theorem Tabulates.workflow_eq {sheet : Sheet} (h : i.Tabulates world sheet) :
    i.workflow world = sheet.workflow := by
  obtain ⟨table, input, found, read⟩ := h
  simp only [workflow, table, found, read]
  rfl

theorem Holds.workflow_eq (h : i.Holds world w) : i.workflow world = .ok w := by
  cases h with
  | table tabulates entries forest =>
    rw [tabulates.workflow_eq, Sheet.workflow, entries]
    simp only [Except.mapError, bind, Except.bind, forest]
    rfl
  | json source found read =>
    simp only [workflow, source, found, read]
    rfl

theorem Lacks.workflow_eq (h : i.Lacks world f) : i.workflow world = .error f := by
  cases h with
  | file found => cases source : i.source <;> simp only [workflow, source, found]
  | text source found => simp only [workflow, source, found]
  | json source found read | table source found read =>
    simp only [workflow, source, found, read]
    rfl
  | cell tabulates entries =>
    rw [tabulates.workflow_eq, Sheet.workflow, entries]
    rfl
  | trees tabulates entries forest =>
    rw [tabulates.workflow_eq, Sheet.workflow, entries]
    simp only [Except.mapError, bind, Except.bind, forest]

theorem TurnsDown.isAuthors (h : i.TurnsDown world f) : f.isAuthors = true := by
  cases h with
  | reading lacks => cases lacks <;> rfl
  | compiling => rfl

theorem produce_of_turnsDown (h : i.TurnsDown world f) : i.produce world = .error f := by
  cases h with
  | reading lacks =>
    simp only [produce, lacks.workflow_eq]
    rfl
  | compiling holds refused =>
    simp only [produce, holds.workflow_eq, bind, Except.bind, refused, Except.mapError]

section BrokenOff

variable {octets : List UInt8} {reason : String}
  (found : world.look i.path = .opened ⟨octets, some reason⟩)
include found

end BrokenOff
end Invocation

def Outcome.rejecting (f : Failure) : Outcome where
  exit := 2
  report := some ("Rejected input: " ++ f.message)

theorem ofFailure_of_isAuthors {f : Failure} (h : f.isAuthors = true) :
    Outcome.ofFailure f = .rejecting f := if_pos h

theorem Invocation.TurnsDown.rejects {i : Invocation} {world : World} {f : Failure}
    (h : i.TurnsDown world f) : i.run world = .rejecting f := by
  rw [run, produce_of_turnsDown h]
  exact ofFailure_of_isAuthors h.isAuthors

end FieldProcedure.CommandLine
