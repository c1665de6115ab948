import FieldProcedure.Procedure
import FieldProcedure.Proofs.Wiring

/-! The compilation of a level, step by step. Once a level is wired, its operations are the images
of its wired steps in order; the image of a group holds what its children compile to. A workflow
that passes the vetting is compiled from a pool in which its supplied ids are taken. -/
namespace FieldProcedure
namespace Compilation
open Drawing Pool Wiring

def compileWired (w : Wired) : Drawing Operation :=
  if w.step.kind = .group then do
    let level ← compileLevel w.step.children
    pure (.group (base w) (w.step.config.flag "form" false) level)
  else simple w

def compileAll : List Wired → Drawing (List Operation)
  | [] => pure []
  | w :: rest => do
    let o ← compileWired w
    let os ← compileAll rest
    pure (o :: os)

variable {p q : Pool} {level steps : List Step} {wired : List Wired} {ops : List Operation}

def Alike (s t : Step) : Prop := t = { s with paths := t.paths }

namespace Alike

variable {s t : Step}

theorem refl (s : Step) : Alike s s := by
  cases s
  rfl

theorem kind (h : Alike s t) : t.kind = s.kind := (congrArg Step.kind h :)

theorem title (h : Alike s t) : t.title = s.title := (congrArg Step.title h :)

theorem description (h : Alike s t) : t.description = s.description :=
  (congrArg Step.description h :)

theorem tag (h : Alike s t) : t.tag = s.tag := (congrArg Step.tag h :)

theorem options (h : Alike s t) : t.options = s.options := (congrArg Step.options h :)

theorem config (h : Alike s t) : t.config = s.config := (congrArg Step.config h :)

theorem children (h : Alike s t) : t.children = s.children := (congrArg Step.children h :)

theorem suppliedId? (h : Alike s t) : t.suppliedId? = s.suppliedId? :=
  (congrArg Step.suppliedId? h :)

end Alike

theorem alike_leadingTo (next : Int) (s : Step) : Alike s (leadingTo next s) := by
  unfold leadingTo
  split
  · rfl
  · exact .refl s

theorem compileStep_eq {s : Step} {w : Wired} (h : Alike s w.step) :
    compileStep s w = compileWired w := by
  obtain ⟨hkind, hconfig, hchildren⟩ := And.intro h.kind (And.intro h.config h.children)
  cases s
  simp only [compileStep, compileWired, hkind, hconfig, hchildren, compileLevel]

theorem simpleAll_eq (h : ∀ w ∈ wired, w.step.kind ≠ .group) :
    simpleAll wired = compileAll wired := by
  induction wired with
  | nil => rfl
  | cons w rest ih =>
    have hw : compileWired w = simple w := if_neg (h w List.mem_cons_self)
    rw [simpleAll, compileAll, hw, ih fun w' h' => h w' (List.mem_cons_of_mem _ h')]

theorem compileSteps_eq
    (alike : ∀ (k : Nat) s w, steps[k]? = some s → wired[k]? = some w → Alike s w.step)
    (beyond : ∀ (k : Nat) w, steps.length ≤ k → wired[k]? = some w → w.step.kind ≠ .group) :
    compileSteps steps wired = compileAll wired := by
  induction steps generalizing wired with
  | nil =>
    refine simpleAll_eq fun w hw => ?_
    obtain ⟨k, hk⟩ := List.mem_iff_getElem?.mp hw
    exact beyond k w (Nat.zero_le k) hk
  | cons s rest ih =>
    cases wired with
    | nil => rfl
    | cons w wired =>
      have hw := compileStep_eq (alike 0 s w rfl rfl)
      have hrest := ih (fun k => alike (k + 1)) fun k w hk => beyond (k + 1) w (Nat.succ_le_succ hk)
      simp only [compileSteps, compileAll, hw, hrest]

theorem alike_step {drawn : List String} (h : Wires level wired drawn) {k : Nat} {s : Step}
    {w : Wired} (hs : (framed level)[k]? = some s) (hw : wired[k]? = some w) : Alike s w.step := by
  rw [h.step_eq hw hs]
  cases (framed level)[k + 1]? with
  | none => exact .refl s
  | some next => exact alike_leadingTo next.index s

theorem exists_authored {drawn : List String} (h : Wires level wired drawn) {w : Wired}
    (hw : w ∈ wired) (hgroup : w.step.kind = .group) :
    ∃ s ∈ level, s.kind = .group ∧ w.step.children = s.children := by
  obtain ⟨k, hk⟩ := List.mem_iff_getElem?.mp hw
  obtain ⟨s, hs⟩ := h.exists_step hk
  have alike := alike_step h hs hk
  rw [alike.kind] at hgroup
  obtain ⟨i, _, hs⟩ := getElem?_authored hs (by rw [hgroup]; decide)
  exact ⟨s, List.mem_of_getElem? hs, hgroup, alike.children⟩

theorem wiredInduction {P : List Step → Prop}
    (h : ∀ level, (∀ {wired drawn}, Wires level wired drawn →
      ∀ w ∈ wired, w.step.kind = .group → P w.step.children) → P level)
    (level : List Step) : P level := by
  induction level using Step.levelInduction with
  | h level ih =>
    refine h level fun wires w hw hgroup => ?_
    obtain ⟨s, hs, _, inside⟩ := exists_authored wires hw hgroup
    exact inside ▸ ih s hs

theorem compileLevel_eq (level : List Step) : compileLevel level = wire level >>= compileAll := by
  funext p
  rw [compileLevel, inFrame]
  refine bind_congr_of_gives fun wired q hwire => ?_
  obtain ⟨drawn, _, wires⟩ := wire_gives hwire
  -- The start is no group, then come the authored steps, and nothing after them is a group.
  obtain ⟨w, rest, rfl⟩ := List.exists_cons_of_ne_nil (l := wired) (by
    rintro rfl
    cases wires.length_eq)
  have first : compileWired w = simple w :=
    if_neg (by rw [(alike_step (k := 0) wires rfl rfl).kind]; decide)
  have others : compileSteps level rest = compileAll rest := by
    apply compileSteps_eq
    · intro k s w' hs hw
      have bound := (List.getElem?_eq_some_iff.mp hs).1
      exact alike_step (k := k + 1) wires ((getElem?_framed_of_lt bound).trans hs) hw
    · intro k w' hk hw hgroup
      obtain ⟨s, hs⟩ := wires.exists_step (k := k + 1) hw
      rw [(alike_step wires hs hw).kind] at hgroup
      obtain ⟨i, hi, hs⟩ := getElem?_authored hs (by rw [hgroup]; decide)
      have bound := (List.getElem?_eq_some_iff.mp hs).1
      omega
  simp only [compileAll, first, others]

def CompilesTo (level : List Step) (ops : List Operation) : Prop :=
  ∃ p q, Gives (compileLevel level) p ops q

inductive Image : Wired → Operation → Prop
  | simple {w : Wired} {a : Act} : w.step.kind ≠ .group → act w.step = .ok a →
    Image w (.simple (base w) a)
  | group {w : Wired} {ops : List Operation} : w.step.kind = .group →
    CompilesTo w.step.children ops →
    Image w (.group (base w) (w.step.config.flag "form" false) ops)

theorem Image.base_eq {w : Wired} {o : Operation} (h : Image w o) : o.base = base w := by
  cases h <;> rfl

theorem compileWired_image {w : Wired} {o : Operation} (h : Gives (compileWired w) p o q) :
    Image w o := by
  unfold compileWired at h
  split at h
  · next hgroup =>
    obtain ⟨ops, r, hops, h⟩ := gives_bind.mp h
    obtain ⟨rfl, rfl⟩ := gives_pure.mp h
    exact .group hgroup ⟨p, r, hops⟩
  · next hgroup =>
    unfold simple at h
    split at h
    · next a ha =>
      obtain ⟨rfl, rfl⟩ := gives_pure.mp h
      exact .simple hgroup ha
    · exact absurd h gives_throw

theorem compileAll_images (h : Gives (compileAll wired) p ops q) :
    List.Forall₂ Image wired ops := by
  induction wired generalizing p ops with
  | nil =>
    obtain ⟨rfl, rfl⟩ := gives_pure.mp h
    exact .nil
  | cons w rest ih =>
    obtain ⟨o, r, ho, h⟩ := gives_bind.mp h
    obtain ⟨os, r', hos, h⟩ := gives_bind.mp h
    obtain ⟨rfl, rfl⟩ := gives_pure.mp h
    exact .cons (compileWired_image ho) (ih hos)

theorem CompilesTo.images (h : CompilesTo level ops) :
    ∃ wired drawn, Wires level wired drawn ∧ List.Forall₂ Image wired ops := by
  obtain ⟨p, q, h⟩ := h
  rw [compileLevel_eq] at h
  obtain ⟨wired, r, hwire, h⟩ := gives_bind.mp h
  obtain ⟨drawn, _, wires⟩ := wire_gives hwire
  exact ⟨wired, drawn, wires, compileAll_images h⟩

end Compilation

namespace Workflow
open Drawing

def drawing (w : Workflow) (settings : Settings) : Drawing Procedure := do
  let level ← Compilation.compileLevel w.steps
  let id ← Pool.fresh
  pure {
    id
    title := (Text.trimmed? w.title).getD settings.defaultTitle
    description := (w.description.bind Text.trimmed?).getD settings.defaultDescription
    modified := settings.modified
    level }

def poolWith (settings : Settings) (supplied : List String) : Pool :=
  Pool.reserve { supply := settings.supply } supplied

variable {w : Workflow} {settings : Settings} {supplied : List String}

theorem compile_of_refused {e : CompileError} (h : Vetting.suppliedIds w.steps = .error e) :
    w.compile settings = .error e := by
  simp only [compile, h]
  rfl

theorem compile_of_passed (h : Vetting.suppliedIds w.steps = .ok supplied) :
    w.compile settings = (w.drawing settings (poolWith settings supplied)).1 := by
  simp only [compile, h]
  rfl

theorem gives_drawing {p : Procedure} {q r : Pool} (h : Gives (w.drawing settings) q p r) :
    ∃ q', Gives (Compilation.compileLevel w.steps) q p.level q' ∧ Gives Pool.fresh q' p.id r := by
  obtain ⟨level, q', hlevel, h⟩ := gives_bind.mp h
  obtain ⟨id, r', hid, h⟩ := gives_bind.mp h
  obtain ⟨rfl, rfl⟩ := gives_pure.mp h
  exact ⟨q', hlevel, hid⟩

theorem compile_ok {p : Procedure} (h : w.compile settings = .ok p) :
    ∃ supplied q, Vetting.suppliedIds w.steps = .ok supplied ∧
      Gives (w.drawing settings) (poolWith settings supplied) p q := by
  cases hv : Vetting.suppliedIds w.steps with
  | error e => cases (compile_of_refused hv).symm.trans h
  | ok supplied =>
    rw [compile_of_passed hv] at h
    exact ⟨supplied, _, rfl, Prod.ext h rfl⟩

theorem compile_error {e : CompileError} (h : w.compile settings = .error e) :
    Vetting.suppliedIds w.steps = .error e ∨ ∃ supplied q,
      Vetting.suppliedIds w.steps = .ok supplied ∧
        Fails (w.drawing settings) (poolWith settings supplied) e q := by
  cases hv : Vetting.suppliedIds w.steps with
  | error e' =>
    rw [compile_of_refused hv] at h
    exact .inl (by cases h; rfl)
  | ok supplied =>
    rw [compile_of_passed hv] at h
    exact .inr ⟨supplied, _, rfl, Prod.ext h rfl⟩

theorem exists_compiled (passes : (w.compile settings).isOk = true) :
    ∃ p, w.compile settings = .ok p := by
  cases h : w.compile settings with
  | error e =>
    rw [h] at passes
    cases passes
  | ok p => exact ⟨p, rfl⟩

def sealChecks : List Step := [
  { index := 1, title := "Leaking?", kind := .decision, paths := [⟨3, "yes"⟩, ⟨-2, "no"⟩] },
  { index := 2, kind := .finish, paths := [⟨1, "again"⟩] },
  { index := 3, title := "Photograph the leak", kind := .photo }]

/-- A group whose indexes stand in the level around it too, an authored end inside it, and a
supplied id that a supply of numbered identifiers would draw. -/
def pumpInspection : Workflow where
  title := "Pump inspection"
  steps := [
    { index := 1, id := some " id-0009 ", title := "Isolate the pump" },
    { index := 2, title := "Seal", kind := .group, children := sealChecks }]

def stuttering : Settings where
  supply n := Supply.sequential "id" (n / 2)
  modified := ⟨2024, 3, 1, 9, 30, 15, 0⟩

theorem pumpInspection_compiles : ∃ p, pumpInspection.compile stuttering = .ok p :=
  exists_compiled (by decide +kernel)

end Workflow
end FieldProcedure
