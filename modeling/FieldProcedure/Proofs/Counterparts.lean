import FieldProcedure.Proofs.Identities
import FieldProcedure.Proofs.Trimming

/-! What stands in a procedure for an authored step. Every level of a procedure is a start, the
counterparts of its authored steps in the order of their declaration, and an end; the counterpart of
a group holds its own level. What a kind does not use has no influence: steps that are no group have
no level inside, whatever children they came with. -/
namespace FieldProcedure

namespace Step

def offers (s : Step) : List String := (s.options.map Text.trim).filter (· ≠ "")

theorem filterMap_options (s : Step) : s.options.filterMap Text.trimmed? = s.offers := by
  unfold offers
  induction s.options with
  | nil => rfl
  | cons o rest ih =>
    by_cases blank : Text.isAllBlank o = true
    · simp [Text.trimmed?, blank, Text.trim_eq_empty.mpr blank, ih]
    · have filled : Text.trim o ≠ "" := fun empty => blank (Text.trim_eq_empty.mp empty)
      simp [Text.trimmed?, blank, filled, ih]

def mostChosen (s : Step) : Nat :=
  if s.config.flag "multi" false then max 1 s.offers.length else 1

def isOptional (s : Step) : Bool := s.config.flag "optional" false

end Step

def Kind.plainInputs : List (Kind × InputType) :=
  [(.text, .text), (.numeric, .numeric), (.photo, .photo), (.video, .video),
    (.signature, .signature), (.barcode, .barcode)]

inductive Asks (s : Step) : Act → Prop
  | confirm : s.kind = .instruction → Asks s .confirm
  | decision : s.kind = .decision → Asks s .decision
  | start : s.kind = .start → Asks s .start
  | finish : s.kind = .finish → Asks s .terminate
  | plain {type : InputType} : (s.kind, type) ∈ Kind.plainInputs →
    Asks s (.input ⟨type, s.isOptional, none, .unconstrained⟩)
  | dateTime : s.kind = .dateTime → Asks s (.input ⟨.dateTime, s.isOptional, none, .dateTime⟩)
  | choices : s.kind = .selection → s.config.flag "dynamic" false = false →
    Asks s (.input ⟨.selection, s.isOptional, none,
      .selection s.offers (s.config.flag "fixed" true) 1 s.mostChosen⟩)
  | source {url : String} : s.kind = .selection → s.config.flag "dynamic" false = true →
    s.offers.head? = some url →
    Asks s (.input ⟨.selection, s.isOptional, some url,
      .selection [] (s.config.flag "fixed" true) 1 s.mostChosen⟩)

structure Carries (generated : String → Prop) (position : Nat) (s : Step) (b : Base) : Prop where
  supplied : ∀ id, s.suppliedId? = some id → b.id = id
  generated : s.suppliedId? = none → generated b.id
  title : b.title = s.title
  description : b.description = if s.kind = .start then "" else s.description
  tag : b.tag = if s.kind = .start ∨ Text.isAllBlank s.tag = true then none else some s.tag
  position : b.position = position

structure Frames (generated : String → Prop) (position : Nat) (title : String) (b : Base) :
    Prop where
  generated : generated b.id
  title : b.title = title
  description : b.description = ""
  tag : b.tag = none
  position : b.position = position

mutual
inductive Mirrors (generated : String → Prop) : Nat → Step → Operation → Prop
  | simple {k : Nat} {s : Step} {b : Base} {a : Act} : s.kind ≠ .group →
    Carries generated k s b → Asks s a → Mirrors generated k s (.simple b a)
  | group {k : Nat} {s : Step} {b : Base} {ops : List Operation} : s.kind = .group →
    Carries generated k s b → MirrorsLevel generated s.children ops →
    Mirrors generated k s (.group b (s.config.flag "form" false) ops)

inductive MirrorsAll (generated : String → Prop) : Nat → List Step → List Operation → Prop
  | nil {k : Nat} : MirrorsAll generated k [] []
  | cons {k : Nat} {s : Step} {o : Operation} {steps : List Step} {ops : List Operation} :
    Mirrors generated k s o → MirrorsAll generated (k + 1) steps ops →
    MirrorsAll generated k (s :: steps) (o :: ops)

inductive MirrorsLevel (generated : String → Prop) : List Step → List Operation → Prop
  | framed {level : List Step} {first last : Base} {ops : List Operation} :
    Frames generated 0 "Start" first → MirrorsAll generated 1 level ops →
    Frames generated (level.length + 1) "End" last →
    MirrorsLevel generated level (.simple first .start :: ops ++ [.simple last .terminate])
end

namespace Compilation
open Drawing Pool Wiring Step

variable {generated : String → Prop} {level steps : List Step} {wired : List Wired}
  {ops : List Operation} {drawn ids supplied : List String} {supply : Supply} {p q : Pool}

theorem asks_of_act {s : Step} {a : Act} (h : act s = .ok a) (hkind : s.kind ≠ .group) :
    Asks s a := by
  unfold act at h
  cases kind : s.kind <;> rw [kind] at h
  case group => exact absurd kind hkind
  case selection =>
    simp only [selection, filterMap_options] at h
    have most : (if s.config.flag "multi" false = true then max s.offers.length 1 else 1) =
        s.mostChosen := by rw [mostChosen, Nat.max_comm]
    rw [most] at h
    split at h
    · next dynamic =>
      cases offers : s.offers with
      | nil =>
        rw [offers] at h
        cases h
      | cons url rest =>
        rw [offers] at h
        cases h
        exact .source kind dynamic (by rw [offers]; rfl)
    · next static =>
      cases h
      exact .choices kind (eq_false_of_ne_true static)
  case instruction => cases h; exact .confirm kind
  case decision => cases h; exact .decision kind
  case dateTime => cases h; exact .dateTime kind
  case start => cases h; exact .start kind
  case finish => cases h; exact .finish kind
  all_goals
    cases h
    exact .plain (by rw [kind]; decide)

theorem act_alike {s t : Step} (h : Alike s t) : act t = act s := by
  rw [h]
  rfl

structure Ready (supply : Supply) (supplied : List String) (p : Pool) : Prop where
  supply : p.supply = supply
  taken : ∀ id ∈ supplied, id ∈ p.taken

def Generated (supply : Supply) (supplied : List String) (id : String) : Prop :=
  (∃ n, supply n = id) ∧ id ∉ supplied

theorem Ready.hands (h : Ready supply supplied p) (hands : Hands p ids q) :
    Ready supply supplied q ∧ ∀ id ∈ ids, Generated supply supplied id := by
  induction hands with
  | nothing => exact ⟨h, by simp⟩
  | next hfresh _ ih =>
    have next : Ready supply supplied _ := {
      supply := (fresh_supply hfresh).trans h.supply
      taken := fun id hid => (mem_fresh hfresh).mpr (.inr (h.taken id hid)) }
    obtain ⟨ready, others⟩ := ih next
    refine ⟨ready, fun id hid => ?_⟩
    rcases List.mem_cons.mp hid with rfl | hid
    · exact ⟨h.supply ▸ fresh_drawn hfresh, fun used => fresh_free hfresh (h.taken _ used)⟩
    · exact others id hid

theorem compileAll_ready (h : Gives (compileAll wired) p ops q)
    (ready : Ready supply supplied p) : List.Forall₂ (fun w o =>
      ∃ p q, Ready supply supplied p ∧ Gives (compileWired w) p o q) wired ops := by
  induction wired generalizing p ops with
  | nil =>
    obtain ⟨rfl, rfl⟩ := gives_pure.mp h
    exact .nil
  | cons w rest ih =>
    obtain ⟨o, r, ho, h⟩ := gives_bind.mp h
    obtain ⟨os, r', hos, h⟩ := gives_bind.mp h
    obtain ⟨rfl, rfl⟩ := gives_pure.mp h
    obtain ⟨_, hands, _⟩ := compileWired_count (fun _ => usesOnce _) ho
    exact .cons ⟨p, r, ready, ho⟩ (ih hos (ready.hands hands).1)

theorem carries (wires : Wires level wired drawn) (fresh : ∀ id ∈ drawn, generated id) {k : Nat}
    {s : Step} {w : Wired} (hs : (framed level)[k]? = some s) (hw : wired[k]? = some w) :
    Carries generated k s (base w) := by
  have alike := alike_step wires hs hw
  have hid : (wired.map (·.id))[k]? = some w.id := by rw [List.getElem?_map, hw]; rfl
  refine ⟨fun id supplied => ?_, fun none => ?_, alike.title, ?_, ?_, ?_⟩
  · have given := wires.named.of_supplied hs supplied
    exact Option.some.inj (hid.symm.trans given)
  · exact fresh _ (wires.named.of_none hs none hid)
  · simp only [base, alike.kind, alike.description]
  · simp only [base, alike.kind, alike.tag, Bool.or_eq_true, decide_eq_true_eq]
  · have here := congrArg (·[k]?) wires.positions
    have bound : k < level.length + 2 := by
      rw [← wires.length_eq]
      exact (List.getElem?_eq_some_iff.mp hw).1
    simp only [List.getElem?_map, hw, List.getElem?_range bound] at here
    exact Option.some.inj here

theorem mirrorsAll_of_each {n : Nat} (length : ops.length = steps.length)
    (each : ∀ (k : Nat) s o, steps[k]? = some s → ops[k]? = some o →
      Mirrors generated (n + k) s o) : MirrorsAll generated n steps ops := by
  induction steps generalizing n ops with
  | nil =>
    obtain rfl := List.length_eq_zero_iff.mp length
    exact .nil
  | cons s rest ih =>
    cases ops with
    | nil => cases length
    | cons o ops =>
      refine .cons (each 0 s o rfl rfl) (ih (Nat.succ.inj length) fun k t o' ht ho => ?_)
      have here := each (k + 1) t o' ht ho
      rwa [show n + (k + 1) = n + 1 + k by omega] at here

theorem mirrorsAll_append {n : Nat} {more : List Step}
    (h : MirrorsAll generated n (steps ++ more) ops) : ∃ front back, ops = front ++ back ∧
      MirrorsAll generated n steps front ∧ MirrorsAll generated (n + steps.length) more back := by
  induction steps generalizing n ops with
  | nil => exact ⟨[], ops, rfl, .nil, h⟩
  | cons s rest ih =>
    cases h with
    | cons here later =>
      obtain ⟨front, back, rfl, hfront, hback⟩ := ih later
      refine ⟨_ :: front, back, rfl, .cons here hfront, ?_⟩
      rwa [show n + (s :: rest).length = n + 1 + rest.length by
        rw [List.length_cons]; omega]

theorem mirrorsLevel_of_framed (h : MirrorsAll generated 0 (framed level) ops) :
    MirrorsLevel generated level ops := by
  unfold framed at h
  cases h with
  | cons start later =>
    obtain ⟨inner, back, rfl, hinner, hback⟩ := mirrorsAll_append later
    cases hback with
    | cons finish beyond =>
      cases beyond
      cases start with
      | group hkind => cases hkind
      | simple _ first asks =>
        cases finish with
        | group hkind => cases hkind
        | simple _ last asks' =>
          have hstart : ∀ a, Asks opening a → a = .start := by rintro _ (_ | _) <;> trivial
          have hfinish : ∀ a, Asks closing a → a = .terminate := by rintro _ (_ | _) <;> trivial
          rw [hstart _ asks, hfinish _ asks']
          refine .framed ?_ hinner ?_
          · exact ⟨first.generated rfl, first.title, first.description, first.tag, first.position⟩
          · refine ⟨last.generated rfl, last.title, last.description, last.tag, ?_⟩
            rw [last.position]
            omega

theorem mirrors_of_gives {k : Nat} {s : Step} {w : Wired} {o : Operation} (alike : Alike s w.step)
    (carried : Carries (Generated supply supplied) k s (base w)) (ready : Ready supply supplied p)
    (inside : s.kind = .group → ∀ {p ops q}, Gives (compileLevel s.children) p ops q →
      Ready supply supplied p → MirrorsLevel (Generated supply supplied) s.children ops)
    (h : Gives (compileWired w) p o q) : Mirrors (Generated supply supplied) k s o := by
  unfold compileWired at h
  split at h
  · next hgroup =>
    rw [alike.kind] at hgroup
    obtain ⟨inner, r, hinner, h⟩ := gives_bind.mp h
    obtain ⟨rfl, rfl⟩ := gives_pure.mp h
    rw [alike.children] at hinner
    rw [alike.config]
    exact .group hgroup carried (inside hgroup hinner ready)
  · next hsimple =>
    rw [alike.kind] at hsimple
    unfold simple at h
    split at h
    · next a ha =>
      obtain ⟨rfl, rfl⟩ := gives_pure.mp h
      exact .simple hsimple carried (asks_of_act ((act_alike alike).symm.trans ha) hsimple)
    · exact absurd h gives_throw

theorem mirrorsLevel (level : List Step) : ∀ {p ops q}, Gives (compileLevel level) p ops q →
    Ready supply supplied p → MirrorsLevel (Generated supply supplied) level ops := by
  induction level using levelInduction with
  | h level ih =>
    intro p ops q h ready
    rw [compileLevel_eq] at h
    obtain ⟨wired, r, hwire, h⟩ := gives_bind.mp h
    obtain ⟨drawn, hands, wires⟩ := wire_gives hwire
    obtain ⟨ready, fresh⟩ := ready.hands hands
    have images := compileAll_ready h ready
    refine mirrorsLevel_of_framed (mirrorsAll_of_each ?_ fun k s o hs ho => ?_)
    · rw [← images.length_eq, wires.length_eq, length_framed]
    obtain ⟨w, hw, p', q', ready', compiled⟩ := exists_left images ho
    have carried : Carries (Generated supply supplied) (0 + k) s (base w) := by
      rw [Nat.zero_add]
      exact carries wires (fun id hid => fresh id (List.mem_append_left _ hid)) hs hw
    refine mirrors_of_gives (alike_step wires hs hw) carried ready' (fun hgroup => ?_) compiled
    -- Only an authored step can be a group, so the induction reaches its children.
    obtain ⟨i, _, hs'⟩ := getElem?_authored hs (by rw [hgroup]; decide)
    exact ih s (List.mem_of_getElem? hs')

end Compilation

open Compilation

theorem Workflow.exists_mirrored {w : Workflow} {settings : Settings} {p : Procedure}
    (h : w.compile settings = .ok p) : ∃ generated, MirrorsLevel generated w.steps p.level := by
  obtain ⟨supplied, r, _, h⟩ := Workflow.compile_ok h
  obtain ⟨q, hlevel, _⟩ := Workflow.gives_drawing h
  -- Which ids were supplied does not matter here.
  have ready : Ready settings.supply [] (Workflow.poolWith settings supplied) :=
    ⟨rfl, List.forall_mem_nil _⟩
  exact ⟨_, mirrorsLevel w.steps hlevel ready⟩

/-- Compilation keeps every authored step, in its level and in its place there, and adds the start
and the end of each level and nothing else. -/
theorem compiled_levels_mirror_authored {w : Workflow} {settings : Settings} {p : Procedure}
    (h : w.compile settings = .ok p) :
    MirrorsLevel (Generated settings.supply (Step.suppliedFrom w.steps)) w.steps p.level := by
  obtain ⟨supplied, r, hv, h⟩ := Workflow.compile_ok h
  obtain ⟨q, hlevel, _⟩ := Workflow.gives_drawing h
  obtain ⟨_, perm⟩ := Vetting.suppliedIds_ok hv
  have ready : Ready settings.supply (Step.suppliedFrom w.steps)
      (Workflow.poolWith settings supplied) := {
    supply := rfl
    taken := fun id hid => Pool.mem_reserve.mpr (.inl (perm.mem_iff.mpr hid)) }
  exact mirrorsLevel w.steps hlevel ready

theorem pumpInspection_mirrored : ∃ p, Workflow.pumpInspection.compile Workflow.stuttering = .ok p ∧
    MirrorsLevel (Generated Workflow.stuttering.supply ["id-0009"]) Workflow.pumpInspection.steps
      p.level := by
  obtain ⟨p, h⟩ := Workflow.pumpInspection_compiles
  have supplied : Step.suppliedFrom Workflow.pumpInspection.steps = ["id-0009"] := by decide +kernel
  exact ⟨p, h, supplied ▸ compiled_levels_mirror_authored h⟩

end FieldProcedure
