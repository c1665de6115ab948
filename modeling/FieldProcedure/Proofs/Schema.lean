import FieldProcedure.Proofs.Counterparts
import FieldProcedure.Proofs.Flow

/-! The schema of procedure documents, as a grammar of elements; whatever compiles meets it. Its
rules cross the elements: the type of a step decides which children follow its base, and whether
the base may be tagged and must be connected; a connection stands once with its ends and once in
the drawing; the drawing gives each step the row of its position in its level. -/
namespace FieldProcedure
namespace Schema

open Markup (Element)

def nest (name : String) (children : List Element) : Element := { name, children }

def flags : List String := ["true", "false"]

inductive Anchored : Element → Element → Prop
  | connection {id label source sink : String} : Anchored
    ⟨"Connection", [("Type", label), ("ID", id), ("Source", source), ("Sink", sink)], none, []⟩
    ⟨"Connection", [("ID", id), ("Anchor", "Bottom|Top")], none, []⟩

inductive Connected : List Element → List Element → Prop
  | nowhere : Connected [] []
  | onward {connections anchors : List Element} : connections ≠ [] →
    List.Forall₂ Anchored connections anchors →
    Connected [nest "Connections" connections] [nest "ConnectionAnchors" anchors]

inductive BaseBlock (type : String) (position : Nat) : Element → Prop
  | block {id title description : String} {tag : Option String}
    {connections anchors : List Element} :
    (∀ t ∈ tag, Text.trim t ≠ "") →
    (type = "StartStep" → description = "" ∧ tag = none) →
    (connections = [] ↔ type = "TerminateGroupStep") →
    Connected connections anchors →
    BaseBlock type position ⟨"Base", [("ID", id)], none,
      [.ofText "Title" title, .ofText "Description" description] ++
        tag.toList.map (Element.ofText "Tag") ++ connections ++
        [nest "DesignerData"
          ([.ofText "Position" ("50," ++ toString (100 * (1 + position))), .ofText "Size" "0,0"] ++
            anchors)]⟩

def parameter (constraint : List Element) : Element :=
  nest "InputParameter" [nest "Constraint" constraint]

def choiceParameter (choices : List String) (fixed : String) (most : Nat) : Element := parameter [
  nest "Choices" (choices.map (Element.ofText "Choice")),
  .ofText "FixedMode" fixed,
  .ofText "MinSelection" "1",
  .ofText "MaxSelection" (toString most)]

inductive InputFields : List Element → Prop
  | plain {type optional : String} :
    type ∈ ["Text", "Numeric", "Photo", "Video", "Signature", "Barcode"] → optional ∈ flags →
    InputFields [.ofText "InputType" type, .ofText "IsOptional" optional,
      parameter [.ofText "ConstraintType" "None"]]
  | dateTime {optional : String} : optional ∈ flags →
    InputFields [.ofText "InputType" "DateTime", .ofText "IsOptional" optional,
      parameter [.ofText "DisplayDate" "true", .ofText "DisplayTime" "true"]]
  | choices {optional fixed : String} {choices : List String} {most : Nat} : optional ∈ flags →
    fixed ∈ flags →
    InputFields [.ofText "InputType" "Selection", .ofText "IsOptional" optional,
      choiceParameter choices fixed most]
  | source {optional fixed url : String} {most : Nat} : optional ∈ flags → fixed ∈ flags →
    InputFields [.ofText "InputType" "Selection", .ofText "IsOptional" optional,
      .ofText "DynamicUrl" url, choiceParameter [] fixed most]

mutual
inductive StepAt : Nat → String → Element → Prop
  | bare {position : Nat} {type : String} {base : Element} :
    type ∈ ["ConfirmStep", "StartStep", "TerminateGroupStep", "DecisionStep"] →
    BaseBlock type position base →
    StepAt position type ⟨"Step", [("Type", type)], none, [base]⟩
  | input {position : Nat} {base : Element} {fields : List Element} :
    BaseBlock "InputStep" position base → InputFields fields →
    StepAt position "InputStep" ⟨"Step", [("Type", "InputStep")], none, base :: fields⟩
  | group {position : Nat} {isForm : String} {base level : Element} : isForm ∈ flags →
    BaseBlock "GroupStep" position base → Level level →
    StepAt position "GroupStep"
      ⟨"Step", [("Type", "GroupStep"), ("IsReport", isForm)], none, [base, level]⟩

inductive StepsFrom : Nat → List String → List Element → Prop
  | nil {position : Nat} : StepsFrom position [] []
  | cons {position : Nat} {type : String} {step : Element} {types : List String}
    {steps : List Element} : StepAt position type step → StepsFrom (position + 1) types steps →
    StepsFrom position (type :: types) (step :: steps)

inductive Level : Element → Prop
  | framed {types : List String} {steps : List Element} :
    StepsFrom 0 ("StartStep" :: types ++ ["TerminateGroupStep"]) steps → Level (nest "Steps" steps)
end

inductive Document : Element → Prop
  | envelope {id title description : String} {modified : Timestamp} {level : Element} :
    Level level →
    Document ⟨"Procedure", [("IsReport", "false")], none, [
      .ofText "ID" id,
      .ofText "Title" title,
      .ofText "Description" description,
      .ofText "DocVersion" "",
      .ofText "Version" "",
      .ofText "Author" "",
      .ofText "Metadata" "",
      .ofText "Interlocked" "false",
      ⟨"Report", [("Export", "false")], none, []⟩,
      .ofText "DateModified" modified.toText,
      nest "Capabilities" (["Default", "Freeform", "Form", "FileInput", "PDFAsset"].map
        (Element.ofText "Capability")),
      level]⟩

/-! ### Compiled levels -/

open Rendering Wiring Compilation Step

variable {level : List Step} {ops : List Operation} {wired : List Wired} {drawn : List String}
  {generated : String → Prop} {k : Nat} {s : Step} {b : Base}

theorem boolText_mem_flags (b : Bool) : boolText b ∈ flags := by
  cases b <;> decide

theorem connected_links (links : List Link) :
    Connected (holding "Connections" (links.map linkElement))
      (holding "ConnectionAnchors" (links.map anchorElement)) := by
  cases links with
  | nil => exact .nowhere
  | cons l rest =>
    refine .onward (by simp) (List.forall₂_map_left_iff.mpr (List.forall₂_map_right_iff.mpr ?_))
    exact List.forall₂_same.mpr fun l _ => .connection

def typeOf : Kind → String
  | .instruction => "ConfirmStep"
  | .decision => "DecisionStep"
  | .group => "GroupStep"
  | .start => "StartStep"
  | .finish => "TerminateGroupStep"
  | _ => "InputStep"

theorem typeOf_start {kind : Kind} : typeOf kind = "StartStep" ↔ kind = .start := by
  cases kind <;> simp [typeOf]

theorem typeOf_finish {kind : Kind} : typeOf kind = "TerminateGroupStep" ↔ kind = .finish := by
  cases kind <;> simp [typeOf]

theorem baseBlock (carried : Carries generated k s b) (linked : b.links = [] ↔ s.kind = .finish) :
    BaseBlock (typeOf s.kind) k (baseElement b) := by
  have tagged : ∀ t ∈ b.tag, Text.trim t ≠ "" := by
    intro t ht
    rw [carried.tag] at ht
    split at ht
    · cases ht
    · next filled =>
      cases ht
      exact fun blank => filled (.inr (Text.trim_eq_empty.mp blank))
  have opened : typeOf s.kind = "StartStep" → b.description = "" ∧ b.tag = none := by
    intro htype
    have hkind := typeOf_start.mp htype
    exact ⟨carried.description.trans (if_pos hkind), carried.tag.trans (if_pos (.inl hkind))⟩
  have closed : holding "Connections" (b.links.map linkElement) = [] ↔
      typeOf s.kind = "TerminateGroupStep" := by
    rw [typeOf_finish, ← linked]
    cases b.links <;> simp [holding]
  rw [baseElement, designerElement, carried.position]
  exact .block tagged opened closed (connected_links b.links)

theorem stepAt_simple {a : Act} (asks : Asks s a)
    (hbase : BaseBlock (typeOf s.kind) k (baseElement b)) :
    StepAt k (typeOf s.kind) (operationElement (.simple b a)) := by
  have optional := boolText_mem_flags s.isOptional
  have fixed := boolText_mem_flags (s.config.flag "fixed" true)
  cases asks with
  | confirm hkind | decision hkind | start hkind | finish hkind =>
    rw [hkind] at hbase ⊢
    exact .bare (by decide) hbase
  | @plain type hplain =>
    have named : typeOf s.kind = "InputStep" ∧
        type.name ∈ ["Text", "Numeric", "Photo", "Video", "Signature", "Barcode"] := by
      revert hplain
      cases s.kind <;> cases type <;> decide
    rw [named.1] at hbase ⊢
    exact .input hbase (.plain named.2 optional)
  | dateTime hkind =>
    rw [hkind] at hbase ⊢
    exact .input hbase (.dateTime optional)
  | choices hkind =>
    rw [hkind] at hbase ⊢
    exact .input hbase (.choices optional fixed)
  | source hkind =>
    rw [hkind] at hbase ⊢
    exact .input hbase (.source optional fixed)

theorem links_eq_nil_iff {w : Wired} (wires : Wires level wired drawn)
    (hs : (framed level)[k]? = some s) (hw : wired[k]? = some w) :
    (base w).links = [] ↔ s.kind = .finish := by
  have alike := alike_step wires hs hw
  constructor
  · intro none
    by_contra hkind
    obtain ⟨next, hnext⟩ := exists_next hs hkind
    have paths : w.step.paths ≠ [] := by
      rw [wires.step_eq hw hs, hnext]
      by_cases hpaths : s.paths = [] <;> simp [leadingTo, hpaths, hkind]
    have linked := wires.linked w (List.mem_of_getElem? hw)
    have kept : (base w).links = w.links := if_neg (alike.kind ▸ hkind)
    rw [← kept, none] at linked
    exact paths (List.forall₂_nil_right_iff.mp linked)
  · intro hkind
    exact if_pos (alike.kind.trans hkind)

theorem stepsFrom_of_each {steps : List Step} {n : Nat} (length : ops.length = steps.length)
    (each : ∀ (k : Nat) s o, steps[k]? = some s → ops[k]? = some o →
      StepAt (n + k) (typeOf s.kind) (operationElement o)) :
    StepsFrom n (steps.map fun s => typeOf s.kind) (operationElements ops) := by
  induction steps generalizing n ops with
  | nil =>
    obtain rfl := List.length_eq_zero_iff.mp length
    exact .nil
  | cons s rest ih =>
    cases ops with
    | nil => cases length
    | cons o ops =>
      refine .cons (each 0 s o rfl rfl) (ih (Nat.succ.inj length) fun k t o' ht ho => ?_)
      have here := each (k + 1) t o' ht ho
      rwa [show n + (k + 1) = n + 1 + k by omega] at here

theorem level_conforms (level : List Step) :
    ∀ {ops}, CompilesTo level ops → Level (levelElement ops) := by
  induction level using wiredInduction with
  | h level ih =>
    intro ops compiles
    obtain ⟨wired, drawn, wires, images⟩ := compiles.images
    have types : (framed level).map (fun s => typeOf s.kind) =
        "StartStep" :: level.map (fun s => typeOf s.kind) ++ ["TerminateGroupStep"] := by
      simp [framed, opening, closing, typeOf]
    have steps : StepsFrom 0 ((framed level).map fun s => typeOf s.kind)
        (operationElements ops) := by
      have length : ops.length = (framed level).length := by
        rw [← images.length_eq, wires.length_eq, length_framed]
      refine stepsFrom_of_each length fun k s o hs ho => ?_
      obtain ⟨w, hw, image⟩ := exists_left images ho
      have alike := alike_step wires hs hw
      have carried : Carries (fun _ => True) k s (base w) := carries wires (by simp) hs hw
      have block := baseBlock carried (links_eq_nil_iff wires hs hw)
      rw [Nat.zero_add]
      cases image with
      | simple hkind hact =>
        rw [alike.kind] at hkind
        exact stepAt_simple (asks_of_act ((act_alike alike).symm.trans hact) hkind) block
      | group hkind inner =>
        have below := ih wires w (List.mem_of_getElem? hw) hkind inner
        rw [alike.kind] at hkind
        rw [hkind] at block ⊢
        exact .group (boolText_mem_flags _) block below
    rw [types] at steps
    exact .framed steps

end Schema

open Schema Drawing in
theorem compiled_document_conforms {w : Workflow} {settings : Settings} {p : Procedure}
    (h : w.compile settings = .ok p) : Schema.Document p.element := by
  obtain ⟨supplied, r, _, h⟩ := Workflow.compile_ok h
  obtain ⟨q, hlevel, _⟩ := Workflow.gives_drawing h
  exact .envelope (level_conforms w.steps ⟨_, _, hlevel⟩)

theorem pumpInspection_conforms : ∃ p, Workflow.pumpInspection.compile Workflow.stuttering = .ok p ∧
    Schema.Document p.element := by
  obtain ⟨p, h⟩ := Workflow.pumpInspection_compiles
  exact ⟨p, h, compiled_document_conforms h⟩

end FieldProcedure
