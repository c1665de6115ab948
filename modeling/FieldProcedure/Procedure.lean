import FieldProcedure.Compilation
import FieldProcedure.Markup.Sink
import FieldProcedure.Rendering
import FieldProcedure.Timestamp
import FieldProcedure.Vetting

/-! Procedure documents, and the compilation of a workflow into one. -/
namespace FieldProcedure

open Markup (Element)

structure Procedure where
  id : String
  title : String
  description : String
  modified : Timestamp
  level : List Operation
deriving Repr, Inhabited

namespace Procedure

def capabilities : List String := ["Default", "Freeform", "Form", "FileInput", "PDFAsset"]

def element (p : Procedure) : Element where
  name := "Procedure"
  attributes := [("IsReport", "false")]
  children :=
    [.ofText "ID" p.id, .ofText "Title" p.title, .ofText "Description" p.description] ++
      ["DocVersion", "Version", "Author", "Metadata"].map (Element.ofText · "") ++
      [.ofText "Interlocked" "false",
        { name := "Report", attributes := [("Export", "false")] },
        .ofText "DateModified" p.modified.toText,
        { name := "Capabilities", children := capabilities.map (Element.ofText "Capability") },
        Rendering.levelElement p.level]

def xml (p : Procedure) : String := Markup.Xml.toText p.element

def json (p : Procedure) : String := p.element.toJson.pretty 0

def writeXml (p : Procedure) (refusal : String) (room : Nat) : Markup.Delivery :=
  Markup.Xml.write p.element refusal room

def stepIds (p : Procedure) : List String := Operation.idsAll p.level

end Procedure

structure Settings where
  supply : Supply
  modified : Timestamp
  defaultTitle : String := "My Workflow"
  defaultDescription : String := "Generated workflow"

def Workflow.compile (w : Workflow) (settings : Settings) : Except CompileError Procedure := do
  let supplied ← Vetting.suppliedIds w.steps
  let pool : Pool := { supply := settings.supply }
  let drawing : Drawing Procedure := do
    let level ← Compilation.compileLevel w.steps
    let id ← Pool.fresh
    pure {
      id
      title := (Text.trimmed? w.title).getD settings.defaultTitle
      description := (w.description.bind Text.trimmed?).getD settings.defaultDescription
      modified := settings.modified
      level }
  (drawing (pool.reserve supplied)).1

end FieldProcedure
