import FieldProcedure.Proofs.Levels
import FieldProcedure.Proofs.Settings

/-! Workflows as they are written in JSON, and read back. The members of a workflow, a step or a
path stand in any order, each at most once, beside any others; what is the default may be written,
be null or be left out. Only brackets inside one another are limited, and those of other members are
not counted. -/
namespace FieldProcedure.Intake

open Json

/-! What is written. -/

def Written (values : List Script) (writes : Script → Prop) : Prop :=
  Script.Once values False writes

/-- The value of a member that may also be null or missing if it is the default. -/
def Optionally (values : List Script) (isDefault : Prop) (writes : Script → Prop) : Prop :=
  Script.Once values isDefault fun v => v = .token .null ∧ isDefault ∨ writes v

def InList (writes : Nat → List Script → Prop) : Nat → Script → Prop
  | room + 1, .array _ items => writes room items.toList
  | _, _ => False

def InObject (writes : Nat → List (String × Script) → Prop) : Nat → Script → Prop
  | room + 1, .object _ members => writes room members.toList
  | _, _ => False

def WritesPath (p : Path) : Nat → Script → Prop :=
  InObject fun _ members =>
    Written (Script.under ["stepIndex"] members) (·.int? = some p.target) ∧
    Optionally (Script.under ["decisionName"] members) (p.label = "") (·.text? = some p.label)

def WritesConfig (c : Config) : Nat → Script → Prop :=
  InObject fun _ members => ∃ pairs, Spells members pairs ∧ pairs.Perm c.entries

def WritesPaths (paths : List Path) : Nat → Script → Prop :=
  InList fun room items => List.Forall₂ (fun p v => WritesPath p room v) paths items

def WritesTexts (texts : List String) : Nat → Script → Prop :=
  InList fun _ items => List.Forall₂ (fun t v => v.text? = some t) texts items

mutual
def WritesStep : Step → Nat → Script → Prop
  | ⟨id, index, title, description, tag, kind, paths, options, config, children⟩ =>
    InObject fun room members =>
      Optionally (Script.under ["stepId"] members) (id = none)
        (fun v => v.text?.map some = some id) ∧
      Written (Script.under ["stepIndex"] members) (·.int? = some index) ∧
      Optionally (Script.under ["stepTitle"] members) (title = "") (·.text? = some title) ∧
      Optionally (Script.under ["stepDescription"] members) (description = "")
        (·.text? = some description) ∧
      Optionally (Script.under ["stepTag"] members) (tag = "") (·.text? = some tag) ∧
      Optionally (Script.under ["stepType"] members) (kind = .instruction)
        (·.text? = some kind.name) ∧
      Optionally (Script.under ["decisionPaths"] members) (paths = []) (WritesPaths paths room) ∧
      Optionally (Script.under ["selectionOptions"] members) (options = [])
        (WritesTexts options room) ∧
      Optionally (Script.under ["steps", "children"] members) (children = [])
        (InList (fun room items => WritesSteps children room items) room) ∧
      Optionally (Script.under ["config"] members) (config = {}) (WritesConfig config room)

def WritesSteps : List Step → Nat → List Script → Prop
  | [], _, items => items = []
  | s :: rest, room, items =>
    ∃ v vs, WritesStep s room v ∧ WritesSteps rest room vs ∧ items = v :: vs
end

def WritesWorkflow (w : Workflow) : Nat → Script → Prop :=
  InObject fun room members =>
    Written (Script.under ["workflowTitle"] members) (·.text? = some w.title) ∧
    Optionally (Script.under ["workflowDescription"] members) (w.description = none)
      (fun v => v.text?.map some = some w.description) ∧
    Written (Script.under ["workflowSteps"] members) (InList (WritesSteps w.steps) room)

/-! How it is read. -/

variable {room : Nat} {α : Type} {read : Node → Except Fault α} {values : List Script} {v : Script}
  {writes : Script → Prop}

theorem Optionally.once {default a : α} {absent : Prop} (h : Optionally values (a = default) writes)
    (nullIs : ∀ stop, read (.scalar .null stop) = .ok a → a = default)
    (reads : ∀ v, writes v → v.Yields room fun n => read n = .ok a)
    (missing : a = default → absent) :
    Script.Once values absent (·.Yields room fun n => readOr default read n = .ok a) :=
  h.imp missing fun v hv => yields_or nullIs (hv.imp_right (reads v))

theorem Optionally.once_of_rejects {default a : α} {absent : Prop}
    (h : Optionally values (a = default) writes)
    (rejects : ∀ stop, ∃ fault, read (.scalar .null stop) = .error fault)
    (reads : ∀ v, writes v → v.Yields room fun n => read n = .ok a)
    (missing : a = default → absent) :
    Script.Once values absent (·.Yields room fun n => readOr default read n = .ok a) := by
  refine h.once (fun stop null => ?_) reads missing
  obtain ⟨fault, error⟩ := rejects stop
  rw [error] at null
  cases null

theorem Written.once {a : α} {absent : Prop} (h : Written values writes)
    (reads : ∀ v, writes v → v.Yields room fun n => read n = .ok a) :
    Script.Once values absent (·.Yields room fun n => read n = .ok a) :=
  h.imp False.elim reads

theorem exists_of_inList {writes : Nat → List Script → Prop} (h : InList writes room v) :
    ∃ inner gap items, room = inner + 1 ∧ v = .array gap items ∧ writes inner items.toList := by
  match room, v, h with
  | inner + 1, .array gap items, h => exact ⟨inner, gap, items, rfl, rfl, h⟩

theorem exists_of_inObject {writes : Nat → List (String × Script) → Prop}
    (h : InObject writes room v) : ∃ inner gap members, room = inner + 1 ∧ v = .object gap members ∧
      writes inner members.toList := by
  match room, v, h with
  | inner + 1, .object gap members, h => exact ⟨inner, gap, members, rfl, rfl, h⟩

/-! Paths. -/

def PathField.Agrees (p : Path) : PathField → Path → Prop
  | .target, draft => draft.target = p.target
  | .label, draft => draft.label = p.label

def PathField.Reads (p : Path) : PathField → Node → Prop
  | .target, n => readInt n = .ok p.target
  | .label, n => readOr "" readText n = .ok p.label

def PathField.put (p : Path) : PathField → Path → Path
  | .target, draft => { draft with target := p.target }
  | .label, draft => { draft with label := p.label }

theorem settles_path {p : Path} {f : PathField} {n : Node} (h : f.Reads p n) :
    Settles setPath (PathField.Agrees p) f n := by
  intro draft
  refine ⟨f.put p draft, ?_, ?_, fun g hg => ?_⟩
  · cases f <;> simp only [PathField.Reads] at h <;> simp only [setPath, h] <;> rfl
  · cases f <;> rfl
  · cases f <;> cases g <;> first | exact hg | rfl

theorem yields_path {p : Path} (small : Number.isSigned64 p.target = true)
    (h : WritesPath p room v) : v.Yields room fun n => readPath n = .ok p := by
  obtain ⟨room, gap, members, rfl, rfl, target, label⟩ := exists_of_inObject h
  have fields : ∀ f : PathField, Script.Once (Script.under (pathShape.keys f) members.toList)
      (f.Agrees p { target := 0 } ∧ pathShape.required f = false)
      (·.Yields room (f.Reads p)) := by
    intro f
    cases f with
    | target => exact target.once fun _ => yields_int small
    | label =>
      exact label.once_of_rejects (fun _ => ⟨_, rfl⟩) (fun _ => yields_text)
        fun none => ⟨none.symm, rfl⟩
  have record : (Script.object gap members).Yields (room + 1) fun n =>
      ∃ final, pathShape.read setPath { target := 0 } n = .ok final ∧
        ∀ f : PathField, f.Agrees p final :=
    yields_record gap members _ (fun f => by cases f <;> decide)
      fun f => (fields f).imp (fun absent => absent) fun _ value => value.imp fun _ => settles_path
  refine record.imp ?_
  rintro n ⟨final, read, agrees⟩
  have same : final = p := by
    cases final
    cases p
    exact congrArg₂ Path.mk (agrees .target) (agrees .label)
  rw [readPath, read, same]

/-! Lists. -/

theorem yields_texts {texts : List String} (h : WritesTexts texts room v) :
    v.Yields room fun n => readList readText n = .ok texts := by
  obtain ⟨room, gap, items, rfl, rfl, texts⟩ := exists_of_inList h
  exact yields_list (texts.imp fun _ _ => yields_text)

theorem yields_paths {paths : List Path} (small : ∀ p ∈ paths, Number.isSigned64 p.target = true)
    (h : WritesPaths paths room v) : v.Yields room fun n => readList readPath n = .ok paths := by
  obtain ⟨room, gap, items, rfl, rfl, listed⟩ := exists_of_inList h
  have both := (List.forall₂_and_left paths items.toList).mpr ⟨small, listed⟩
  exact yields_list (both.imp fun _ _ path => yields_path path.1 path.2)

theorem yields_entries {c : Config} (stored : c.Stored) (h : WritesConfig c room v) :
    v.Yields room fun n => readConfig n = .ok c := by
  obtain ⟨room, gap, members, rfl, rfl, pairs, spelt, perm⟩ := exists_of_inObject h
  have entries : Config.ofList (Keyed.ofList pairs) = c := by
    rw [Keyed.ofList_of_perm stored.ascending perm, stored.ofList_entries]
  rw [← entries]
  exact yields_config spelt

theorem yields_kind {k : Kind} (h : v.text? = some k.name) :
    v.Yields room fun n => readKind n = .ok k := by
  refine (yields_text h).imp fun n reads => ?_
  rw [readKind, reads]
  exact congrArg Except.ok (Kind.ofName_name k)

theorem yields_some {t : Option String} (h : v.text?.map some = some t) :
    v.Yields room fun n => (some <$> readText n : Except Fault (Option String)) = .ok t := by
  obtain ⟨s, text, rfl⟩ := Option.map_eq_some_iff.mp h
  refine (yields_text text).imp fun n reads => ?_
  rw [reads]
  rfl

/-! Steps. -/

theorem readSteps_eq (items : Items) : readSteps items = readItems readStep items := by
  match items with
  | .closed stop => rw [readSteps, readItems]
  | .item start value rest => rw [readSteps, readItems, readSteps_eq rest]
  | .broken fault => rw [readSteps, readItems]

theorem readChildren_eq (n : Node) : readChildren n = readOr [] (readList readStep) n := by
  match n with
  | .scalar .null stop => rw [readChildren, readOr]
  | .scalar (.bool _) _ | .scalar (.int _) _ | .scalar (.float _) _ | .scalar (.text _) _ => rfl
  | .array start items =>
    rw [readChildren, readSteps_eq]
    rfl
  | .object start members => rfl
  | .broken fault => rfl

def setField (f : StepField) (n : Node) (s : Step) : Except Fault Step :=
  if f = .children then do
    let children ← readOr [] (readList readStep) n
    return { s with children }
  else setStep f n s

theorem readStepMembers_eq (seen : List StepField) (draft : Step) (members : Members) :
    readStepMembers seen draft members = stepShape.readMembers setField seen draft members := by
  match members with
  | .closed stop => rw [readStepMembers, Shape.readMembers]
  | .broken fault => rw [readStepMembers, Shape.readMembers]
  | .member key spot value rest =>
    rw [readStepMembers, Shape.readMembers]
    cases stepShape.field? key with
    | none => exact readStepMembers_eq seen draft rest
    | some f =>
      dsimp only
      split
      · rfl
      · rw [setField]
        split
        · rw [readChildren_eq]
          cases readOr [] (readList readStep) value with
          | error fault => rfl
          | ok children => exact readStepMembers_eq (f :: seen) { draft with children } rest
        · refine congrArg (setStep f value draft >>= ·) (funext fun draft' => ?_)
          exact readStepMembers_eq (f :: seen) draft' rest

theorem readStepFields_eq (draft : Step) (left : List StepField) (items : Items) :
    readStepFields draft left items = stepShape.readFields setField draft left items := by
  match left, items with
  | [], .closed stop => rfl
  | [], .item start value rest => rfl
  | [], .broken fault => rw [readStepFields, Shape.readFields, List.isEmpty_nil, if_pos rfl]
  | f :: left, .closed stop => rw [readStepFields, Shape.readFields]; exact nofun
  | f :: left, .broken fault => rw [readStepFields, Shape.readFields]; rfl
  | f :: left, .item start value rest =>
    rw [readStepFields, Shape.readFields, setField]
    split
    · rw [readChildren_eq]
      cases readOr [] (readList readStep) value with
      | error fault => rfl
      | ok children => exact readStepFields_eq { draft with children } left rest
    · refine congrArg (setStep f value draft >>= ·) (funext fun draft' => ?_)
      exact readStepFields_eq draft' left rest

theorem readStep_eq (n : Node) : readStep n = stepShape.read setField { index := 0 } n := by
  match n with
  | .object start members => rw [readStep, readStepMembers_eq, Shape.read]
  | .array start items => rw [readStep, readStepFields_eq, Shape.read]
  | .scalar s stop => rfl
  | .broken fault => rfl

def StepField.Agrees (s : Step) : StepField → Step → Prop
  | .id, draft => draft.id = s.id
  | .index, draft => draft.index = s.index
  | .title, draft => draft.title = s.title
  | .description, draft => draft.description = s.description
  | .tag, draft => draft.tag = s.tag
  | .kind, draft => draft.kind = s.kind
  | .paths, draft => draft.paths = s.paths
  | .options, draft => draft.options = s.options
  | .children, draft => draft.children = s.children
  | .config, draft => draft.config = s.config

def StepField.Reads (s : Step) : StepField → Node → Prop
  | .id, n => readOr none (fun n => some <$> readText n) n = .ok s.id
  | .index, n => readInt n = .ok s.index
  | .title, n => readOr "" readText n = .ok s.title
  | .description, n => readOr "" readText n = .ok s.description
  | .tag, n => readOr "" readText n = .ok s.tag
  | .kind, n => readOr .instruction readKind n = .ok s.kind
  | .paths, n => readOr [] (readList readPath) n = .ok s.paths
  | .options, n => readOr [] (readList readText) n = .ok s.options
  | .children, n => readOr [] (readList readStep) n = .ok s.children
  | .config, n => readOr {} readConfig n = .ok s.config

def StepField.put (s : Step) : StepField → Step → Step
  | .id, draft => { draft with id := s.id }
  | .index, draft => { draft with index := s.index }
  | .title, draft => { draft with title := s.title }
  | .description, draft => { draft with description := s.description }
  | .tag, draft => { draft with tag := s.tag }
  | .kind, draft => { draft with kind := s.kind }
  | .paths, draft => { draft with paths := s.paths }
  | .options, draft => { draft with options := s.options }
  | .children, draft => { draft with children := s.children }
  | .config, draft => { draft with config := s.config }

theorem readOr_readConfig (n : Node) : readOr {} readConfig n = readConfig n := by
  by_cases null : ∃ stop, n = .scalar .null stop
  · obtain ⟨stop, rfl⟩ := null
    rw [readOr, readConfig]
  · rw [readOr]
    exact fun stop same => null ⟨stop, same⟩

theorem setField_reads {s : Step} {f : StepField} {n : Node} (h : f.Reads s n) (draft : Step) :
    setField f n draft = .ok (f.put s draft) := by
  cases f
  case config =>
    rw [StepField.Reads, readOr_readConfig] at h
    simp only [setField, setStep, h]
    rfl
  all_goals
    simp only [StepField.Reads] at h
    simp only [setField, setStep, h, reduceCtorEq, if_true, if_false]
    rfl

theorem settles_step {s : Step} {f : StepField} {n : Node} (h : f.Reads s n) :
    Settles setField (StepField.Agrees s) f n := by
  intro draft
  refine ⟨f.put s draft, setField_reads h draft, ?_, fun g hg => ?_⟩
  · cases f <;> rfl
  · cases f <;> cases g <;> first | exact hg | rfl

/-- What every step is like: its numbers have 64 bits, and its configuration was filled pair by
pair. -/
structure IsAuthored (s : Step) : Prop where
  index : Number.isSigned64 s.index = true
  targets : ∀ p ∈ s.paths, Number.isSigned64 p.target = true
  config : ∃ pairs, Config.ofList pairs = s.config

theorem writesSteps_iff {steps : List Step} {items : List Script} :
    WritesSteps steps room items ↔ List.Forall₂ (fun s v => WritesStep s room v) steps items := by
  induction steps generalizing items with
  | nil => rw [WritesSteps, List.forall₂_nil_left_iff]
  | cons s rest ih =>
    rw [WritesSteps, List.forall₂_cons_left_iff]
    simp only [ih]

theorem yields_step {s : Step} (authored : IsAuthored s)
    (children : ∀ room v, InList (WritesSteps s.children) room v →
      v.Yields room fun n => readList readStep n = .ok s.children)
    (h : WritesStep s room v) : v.Yields room fun n => readStep n = .ok s := by
  obtain ⟨id, index, title, description, tag, kind, paths, options, config, steps⟩ := s
  rw [WritesStep] at h
  obtain ⟨room, gap, members, rfl, rfl, hid, hindex, htitle, hdescription, htag, hkind, hpaths,
    hoptions, hchildren, hconfig⟩ := exists_of_inObject h
  generalize whole : Step.mk id index title description tag kind paths options config steps = s
    at authored children
  have fields : ∀ f : StepField, Script.Once (Script.under (stepShape.keys f) members.toList)
      (f.Agrees s { index := 0 } ∧ stepShape.required f = false)
      (·.Yields room (f.Reads s)) := by
    intro f
    subst whole
    cases f with
    | id =>
      exact hid.once_of_rejects (fun _ => ⟨_, rfl⟩) (fun _ => yields_some)
        fun none => ⟨none.symm, rfl⟩
    | index => exact hindex.once fun _ => yields_int authored.index
    | title =>
      exact htitle.once_of_rejects (fun _ => ⟨_, rfl⟩) (fun _ => yields_text)
        fun none => ⟨none.symm, rfl⟩
    | description =>
      exact hdescription.once_of_rejects (fun _ => ⟨_, rfl⟩) (fun _ => yields_text)
        fun none => ⟨none.symm, rfl⟩
    | tag =>
      exact htag.once_of_rejects (fun _ => ⟨_, rfl⟩) (fun _ => yields_text)
        fun none => ⟨none.symm, rfl⟩
    | kind =>
      exact hkind.once_of_rejects (fun _ => ⟨_, rfl⟩) (fun _ => yields_kind)
        fun none => ⟨none.symm, rfl⟩
    | paths =>
      exact hpaths.once_of_rejects (fun _ => ⟨_, rfl⟩) (fun _ => yields_paths authored.targets)
        fun none => ⟨none.symm, rfl⟩
    | options =>
      exact hoptions.once_of_rejects (fun _ => ⟨_, rfl⟩) (fun _ => yields_texts)
        fun none => ⟨none.symm, rfl⟩
    | children =>
      exact hchildren.once_of_rejects (fun _ => ⟨_, rfl⟩) (fun _ => children _ _)
        fun none => ⟨none.symm, rfl⟩
    | config =>
      -- read by itself, null is a configuration too
      have stored : config.Stored := Config.stored_iff.mpr authored.config
      exact hconfig.once (fun _ reads => (Except.ok.inj reads).symm)
        (fun _ => yields_entries stored) fun none => ⟨none.symm, rfl⟩
  have record : (Script.object gap members).Yields (room + 1) fun n =>
      ∃ final, stepShape.read setField { index := 0 } n = .ok final ∧
        ∀ f : StepField, f.Agrees s final :=
    yields_record gap members _ (fun f => by cases f <;> decide)
      fun f => (fields f).imp (fun absent => absent) fun _ value => value.imp fun _ => settles_step
  refine record.imp ?_
  rintro n ⟨final, read, agrees⟩
  have same : final = s := by
    cases final
    cases s
    simp only [Step.mk.injEq]
    exact ⟨agrees .id, agrees .index, agrees .title, agrees .description, agrees .tag, agrees .kind,
      agrees .paths, agrees .options, agrees .config, agrees .children⟩
  rw [readStep_eq, read, same]

theorem yields_steps {steps : List Step} (authored : ∀ s ∈ Step.subtreesAll steps, IsAuthored s)
    (h : InList (WritesSteps steps) room v) :
    v.Yields room fun n => readList readStep n = .ok steps := by
  induction steps using Step.levelInduction generalizing room v with
  | h steps ih =>
    obtain ⟨room, gap, items, rfl, rfl, listed⟩ := exists_of_inList h
    rw [Step.subtreesAll_eq] at authored
    have each : ∀ s ∈ steps, IsAuthored s ∧ ∀ room v, InList (WritesSteps s.children) room v →
        v.Yields room fun n => readList readStep n = .ok s.children := by
      intro s hs
      have inside : ∀ t ∈ s.subtrees, IsAuthored t :=
        fun t ht => authored t (List.mem_flatMap.mpr ⟨s, hs, ht⟩)
      rw [Step.subtrees_eq] at inside
      obtain ⟨here, below⟩ := List.forall_mem_cons.mp inside
      exact ⟨here, fun room v => ih s hs below⟩
    have both := (List.forall₂_and_left steps items.toList).mpr ⟨each, writesSteps_iff.mp listed⟩
    exact yields_list (both.imp fun _ _ step => yields_step step.1.1 step.1.2 step.2)

/-! Workflows. -/

def WorkflowField.Agrees (w : Workflow) : WorkflowField → Workflow → Prop
  | .title, draft => draft.title = w.title
  | .description, draft => draft.description = w.description
  | .steps, draft => draft.steps = w.steps

def WorkflowField.Reads (w : Workflow) : WorkflowField → Node → Prop
  | .title, n => readText n = .ok w.title
  | .description, n => readOr none (fun n => some <$> readText n) n = .ok w.description
  | .steps, n => readList readStep n = .ok w.steps

def WorkflowField.put (w : Workflow) : WorkflowField → Workflow → Workflow
  | .title, draft => { draft with title := w.title }
  | .description, draft => { draft with description := w.description }
  | .steps, draft => { draft with steps := w.steps }

theorem settles_workflow {w : Workflow} {f : WorkflowField} {n : Node} (h : f.Reads w n) :
    Settles setWorkflow (WorkflowField.Agrees w) f n := by
  intro draft
  refine ⟨f.put w draft, ?_, ?_, fun g hg => ?_⟩
  · cases f <;> simp only [WorkflowField.Reads] at h <;> simp only [setWorkflow, h] <;> rfl
  · cases f <;> rfl
  · cases f <;> cases g <;> first | exact hg | rfl

theorem yields_workflow {w : Workflow} (authored : ∀ s ∈ Step.subtreesAll w.steps, IsAuthored s)
    (h : WritesWorkflow w room v) : v.Yields room fun n => readWorkflow n = .ok w := by
  obtain ⟨room, gap, members, rfl, rfl, title, description, steps⟩ := exists_of_inObject h
  have fields : ∀ f : WorkflowField,
      Script.Once (Script.under (workflowShape.keys f) members.toList)
        (f.Agrees w { title := "", steps := [] } ∧ workflowShape.required f = false)
        (·.Yields room (f.Reads w)) := by
    intro f
    cases f with
    | title => exact title.once fun _ => yields_text
    | description =>
      exact description.once_of_rejects (fun _ => ⟨_, rfl⟩) (fun _ => yields_some)
        fun none => ⟨none.symm, rfl⟩
    | steps => exact steps.once fun _ => yields_steps authored
  have record : (Script.object gap members).Yields (room + 1) fun n =>
      ∃ final, workflowShape.read setWorkflow { title := "", steps := [] } n = .ok final ∧
        ∀ f : WorkflowField, f.Agrees w final :=
    yields_record gap members _ (fun f => by cases f <;> decide)
      fun f => (fields f).imp (fun absent => absent) fun _ value =>
        value.imp fun _ => settles_workflow
  refine record.imp ?_
  rintro n ⟨final, read, agrees⟩
  have same : final = w := by
    cases final
    cases w
    simp only [Workflow.mk.injEq]
    exact ⟨agrees .title, agrees .description, agrees .steps⟩
  rw [readWorkflow, read, same]

/-! Every workflow that is not too deep can be written: here with all members, and each at its first
name. -/

def optionScript (t : Option String) : Script := t.elim (.token .null) .ofText

def listScript (items : List Script) : Script := .array .none (.ofList items)

def objectScript (members : List (String × Script)) : Script := .object .none (.ofList members)

def pathScript (p : Path) : Script :=
  objectScript [("stepIndex", .ofInt p.target), ("decisionName", .ofText p.label)]

def configScript (c : Config) : Script :=
  objectScript (c.entries.map fun x => (x.1, .ofText x.2))

mutual
def stepScript : Step → Script
  | ⟨id, index, title, description, tag, kind, paths, options, config, children⟩ =>
    objectScript [("stepId", optionScript id), ("stepIndex", .ofInt index),
      ("stepTitle", .ofText title), ("stepDescription", .ofText description),
      ("stepTag", .ofText tag), ("stepType", .ofText kind.name),
      ("decisionPaths", listScript (paths.map pathScript)),
      ("selectionOptions", listScript (options.map .ofText)),
      ("steps", listScript (stepScripts children)), ("config", configScript config)]

def stepScripts : List Step → List Script
  | [] => []
  | s :: rest => stepScript s :: stepScripts rest
end

def workflowScript (w : Workflow) : Script :=
  objectScript [("workflowTitle", .ofText w.title),
    ("workflowDescription", optionScript w.description),
    ("workflowSteps", listScript (stepScripts w.steps))]

mutual
def height : Step → Nat
  | ⟨_, _, _, _, _, _, _, _, _, children⟩ => heightAll children + 1
def heightAll : List Step → Nat
  | [] => 0
  | s :: rest => max (height s) (heightAll rest)
end

theorem inObject_iff {writes : Nat → List (String × Script) → Prop}
    {members : List (String × Script)} :
    InObject writes (room + 1) (objectScript members) ↔ writes room members := by
  rw [objectScript, InObject, Script.Members.toList_ofList]

theorem inList_iff {writes : Nat → List Script → Prop} {items : List Script} :
    InList writes (room + 1) (listScript items) ↔ writes room items := by
  rw [listScript, InList, Script.Items.toList_ofList]

theorem text?_ofText (t : String) : (Script.ofText t).text? = some t :=
  congrArg some (Literal.text_ofText t)

theorem int?_ofInt (i : Int) : (Script.ofInt i).int? = some i := Numeral.int?_ofInt i

theorem writes_path (p : Path) : WritesPath p (room + 1) (pathScript p) := by
  rw [WritesPath, pathScript, inObject_iff]
  exact ⟨int?_ofInt p.target, .inr (text?_ofText p.label)⟩

theorem writes_config (c : Config) : WritesConfig c (room + 1) (configScript c) := by
  rw [WritesConfig, configScript, inObject_iff]
  refine ⟨c.entries, ?_, .refl _⟩
  simp only [Spells, List.map_map, Function.comp_def, text?_ofText]

theorem writes_option (t : Option String) :
    optionScript t = .token .null ∧ t = none ∨ (optionScript t).text?.map some = some t := by
  cases t with
  | none => exact .inl ⟨rfl, rfl⟩
  | some t => exact .inr (congrArg (Option.map some) (text?_ofText t))

theorem writes_paths (paths : List Path) :
    WritesPaths paths (room + 2) (listScript (paths.map pathScript)) := by
  rw [WritesPaths, inList_iff, List.forall₂_map_right_iff, List.forall₂_same]
  exact fun p _ => writes_path p

theorem writes_texts (texts : List String) :
    WritesTexts texts (room + 1) (listScript (texts.map .ofText)) := by
  rw [WritesTexts, inList_iff, List.forall₂_map_right_iff, List.forall₂_same]
  exact fun t _ => text?_ofText t

theorem stepScripts_eq (steps : List Step) : stepScripts steps = steps.map stepScript := by
  induction steps with
  | nil => rfl
  | cons s rest ih => rw [stepScripts, ih, List.map_cons]

theorem height_le {steps : List Step} {s : Step} (h : s ∈ steps) : height s ≤ heightAll steps := by
  induction steps with
  | nil => cases h
  | cons first rest ih =>
    rw [heightAll]
    rcases List.mem_cons.mp h with rfl | h
    · exact Nat.le_max_left _ _
    · exact Nat.le_trans (ih h) (Nat.le_max_right _ _)

theorem writes_step {s : Step} (enough : 2 * height s + 1 ≤ room)
    (children : ∀ room, 2 * heightAll s.children + 2 ≤ room →
      InList (WritesSteps s.children) room (listScript (stepScripts s.children))) :
    WritesStep s room (stepScript s) := by
  obtain ⟨id, index, title, description, tag, kind, paths, options, config, steps⟩ := s
  rw [height] at enough
  obtain ⟨room, rfl⟩ := Nat.exists_eq_add_of_le' (show 3 ≤ room by omega)
  have deeper : 2 * heightAll steps + 2 ≤ room + 2 := by omega
  rw [WritesStep, stepScript, inObject_iff]
  exact ⟨writes_option id, int?_ofInt index, .inr (text?_ofText title),
    .inr (text?_ofText description), .inr (text?_ofText tag), .inr (text?_ofText kind.name),
    .inr (writes_paths paths), .inr (writes_texts options), .inr (children _ deeper),
    .inr (writes_config config)⟩

theorem writes_steps {steps : List Step} (enough : 2 * heightAll steps + 2 ≤ room) :
    InList (WritesSteps steps) room (listScript (stepScripts steps)) := by
  induction steps using Step.levelInduction generalizing room with
  | h steps ih =>
    obtain ⟨room, rfl⟩ := Nat.exists_eq_add_of_le' (show 1 ≤ room by omega)
    rw [inList_iff, writesSteps_iff, stepScripts_eq, List.forall₂_map_right_iff, List.forall₂_same]
    intro s hs
    have lower := height_le hs
    exact writes_step (by omega) fun room => ih s hs

theorem writes_workflow {w : Workflow} (shallow : heightAll w.steps ≤ 62) :
    WritesWorkflow w maxDepth (workflowScript w) := by
  have steps : InList (WritesSteps w.steps) 126 (listScript (stepScripts w.steps)) :=
    writes_steps (by omega)
  rw [WritesWorkflow, workflowScript, maxDepth, inObject_iff]
  exact ⟨text?_ofText w.title, writes_option w.description, steps⟩

/-! The main result. -/

theorem workflow_reread {w : Workflow} (authored : ∀ s ∈ Step.subtreesAll w.steps, IsAuthored s)
    (h : WritesWorkflow w maxDepth v) (origin : Origin) (before after : Gap) :
    workflowOfJson origin (before.octets ++ (v.octets ++ after.octets)) = .ok w := by
  rw [workflowOfJson, Document.decode_read (yields_workflow authored h)]

def valveClosing : Step where
  index := 2
  title := "Close the valve"

def valveCheck : Step where
  index := 1
  kind := .group
  config := .ofList [("Optional", "yes")]
  children := [valveClosing]

def valveWorkflow : Workflow where
  title := "Valve check"
  steps := [valveCheck]

def valveClosingScript : Script :=
  objectScript [("stepTitle", .ofText "Close the valve"), ("reviewed", .token (.bool true)),
    ("stepIndex", .ofInt 2), ("decisionPaths", .token .null)]

def valveCheckScript : Script :=
  objectScript [("stepType", .ofText "group"), ("stepIndex", .ofInt 1),
    ("stepTitle", .token .null), ("config", configScript valveCheck.config),
    ("children", listScript [valveClosingScript])]

def valveScript : Script :=
  objectScript [("site", listScript [objectScript [("room", .ofInt 7)], .token .null]),
    ("workflowSteps", listScript [valveCheckScript]), ("workflowTitle", .ofText "Valve check")]

theorem valveWorkflow_authored : ∀ s ∈ Step.subtreesAll valveWorkflow.steps, IsAuthored s := by
  intro s hs
  have steps : s = valveCheck ∨ s = valveClosing := by
    simpa [valveWorkflow, valveCheck, valveClosing, Step.subtreesAll, Step.subtrees] using hs
  rcases steps with rfl | rfl
  · exact ⟨by decide, List.forall_mem_nil _, _, rfl⟩
  · exact ⟨by decide, List.forall_mem_nil _, [], rfl⟩

theorem valveClosingScript_writes : WritesStep valveClosing (room + 1) valveClosingScript := by
  rw [valveClosing, WritesStep, valveClosingScript, inObject_iff]
  exact ⟨rfl, int?_ofInt 2, .inr (text?_ofText _), rfl, rfl, rfl, .inl ⟨rfl, rfl⟩, rfl, rfl, rfl⟩

theorem valveCheckScript_writes : WritesStep valveCheck (room + 3) valveCheckScript := by
  have children :
      InList (WritesSteps [valveClosing]) (room + 2) (listScript [valveClosingScript]) :=
    inList_iff.mpr ⟨_, [], valveClosingScript_writes, rfl, rfl⟩
  rw [valveCheck, WritesStep, valveCheckScript, inObject_iff]
  exact ⟨rfl, int?_ofInt 1, .inl ⟨rfl, rfl⟩, rfl, rfl, .inr (text?_ofText _), rfl, rfl,
    .inr children, .inr (writes_config valveCheck.config)⟩

theorem valveScript_writes : WritesWorkflow valveWorkflow maxDepth valveScript := by
  have steps : InList (WritesSteps [valveCheck]) 126 (listScript [valveCheckScript]) :=
    inList_iff.mpr ⟨_, [], valveCheckScript_writes, rfl, rfl⟩
  rw [WritesWorkflow, valveScript, maxDepth, inObject_iff]
  exact ⟨text?_ofText _, rfl, steps⟩

theorem valveWorkflow_reread : (∀ s ∈ Step.subtreesAll valveWorkflow.steps, IsAuthored s) ∧
    WritesWorkflow valveWorkflow maxDepth valveScript ∧
    workflowOfJson .text valveScript.octets = .ok valveWorkflow := by
  refine ⟨valveWorkflow_authored, valveScript_writes, ?_⟩
  have read := workflow_reread valveWorkflow_authored valveScript_writes .text .none .none
  rwa [Gap.none, List.nil_append, List.append_nil] at read

end FieldProcedure.Intake
