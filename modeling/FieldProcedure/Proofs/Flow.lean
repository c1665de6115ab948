import FieldProcedure.Proofs.Identities

/-! The connections of a procedure are the paths that its author declared, level by level. A place
names a level of a tree: the position of a group in the level around it, from the top down, where
the start of a level has position 0. The same place names an authored level and what it compiled
to. -/
namespace FieldProcedure
open Wiring Compilation

def Step.levelAt : List Step → List Nat → Option (List Step)
  | level, [] => some level
  | level, k :: place =>
    match (framed level)[k]? with
    | some s => if s.kind = .group then Step.levelAt s.children place else none
    | none => none

def Operation.levelAt : List Operation → List Nat → Option (List Operation)
  | level, [] => some level
  | level, k :: place =>
    match level[k]? with
    | some (.group _ _ inner) => Operation.levelAt inner place
    | _ => none

/-- In a level with these authored steps, position `k` is that of the step with this index. -/
def HasIndex (level : List Step) (n : Int) (k : Nat) : Prop :=
  ∀ j, ((framed level)[j]?.map (·.index)) = some n ↔ j = k

structure Follows (level : List Step) (ops : List Operation) (path : Path) (link : Link) :
    Prop where
  label : link.label = path.label
  sink : ∃ k o, HasIndex level path.target k ∧ ops[k]? = some o ∧ link.sink = o.base.id

structure FlowsFrom (level : List Step) (ops : List Operation) (k : Nat) (s : Step)
    (o : Operation) : Prop where
  id : ∀ id, s.suppliedId? = some id → o.base.id = id
  title : o.base.title = s.title
  declared : s.kind ≠ .finish → s.paths ≠ [] → List.Forall₂ (Follows level ops) s.paths o.base.links
  default : s.kind ≠ .finish → s.paths = [] → ∃ link next, o.base.links = [link] ∧
    link.label = "" ∧ ops[k + 1]? = some next ∧ link.sink = next.base.id
  finish : s.kind = .finish → o.base.links = []

structure LevelFlows (stepIds : List String) (level : List Step) (ops : List Operation) : Prop where
  length : ops.length = level.length + 2
  source : ∀ o ∈ ops, ∀ link ∈ o.base.links, link.source = o.base.id
  sink : ∀ o ∈ ops, ∀ link ∈ o.base.links,
    stepIds.count link.sink = 1 ∧ link.sink ∈ ops.map (·.base.id)
  flows : ∀ k s o, (framed level)[k]? = some s → ops[k]? = some o → FlowsFrom level ops k s o

variable {level : List Step} {ops : List Operation} {wired : List Wired} {drawn : List String}
  {place : List Nat}

theorem compilesTo_levelAt (h : CompilesTo level ops) (place : List Nat) :
    Option.Rel CompilesTo (Step.levelAt level place) (Operation.levelAt ops place) := by
  induction place generalizing level ops with
  | nil => exact .some h
  | cons k place ih =>
    obtain ⟨wired, drawn, wires, images⟩ := h.images
    rw [Step.levelAt, Operation.levelAt]
    cases hs : (framed level)[k]? with
    | none =>
      -- Both levels have the same length, so there is no operation either.
      have beyond : ops[k]? = none := by
        rw [List.getElem?_eq_none_iff] at hs ⊢
        rwa [← images.length_eq, wires.length_eq, ← length_framed]
      rw [beyond]
      exact .none
    | some s =>
      obtain ⟨w, hw⟩ := wires.exists_wired hs
      obtain ⟨o, ho, image⟩ := exists_right images hw
      have alike := alike_step wires hs hw
      rw [ho]
      cases image with
      | simple hkind _ =>
        rw [alike.kind] at hkind
        simpa only [if_neg hkind] using .none
      | group hkind compiles =>
        rw [alike.kind] at hkind
        rw [alike.children] at compiles
        simpa only [if_pos hkind] using ih compiles

theorem mem_idsAll {x : String} : x ∈ Operation.idsAll ops ↔ ∃ o ∈ ops, x ∈ o.ids := by
  induction ops with
  | nil => simp [Operation.idsAll]
  | cons o rest ih => simp [Operation.idsAll, ih]

theorem base_id_mem (o : Operation) : o.base.id ∈ o.ids := by
  cases o <;> simp [Operation.base, Operation.ids]

theorem id_mem_of_levelAt {inner : List Operation} (hl : Operation.levelAt ops place = some inner)
    {o : Operation} (ho : o ∈ inner) : o.base.id ∈ Operation.idsAll ops := by
  induction place generalizing ops with
  | nil =>
    cases hl
    exact mem_idsAll.mpr ⟨o, ho, base_id_mem o⟩
  | cons k place ih =>
    rw [Operation.levelAt] at hl
    split at hl
    · next base isForm level hgroup =>
      refine mem_idsAll.mpr ⟨_, List.mem_of_getElem? hgroup, ?_⟩
      exact List.mem_cons_of_mem _ (ih hl)
    · cases hl

theorem hasIndex_of_distinct (distinct : ((framed level).map (·.index)).Nodup) {n : Int} {k : Nat}
    (hk : ((framed level).map (·.index))[k]? = some n) : HasIndex level n k := by
  intro j
  rw [← List.getElem?_map]
  constructor
  · intro hj
    have bound := (List.getElem?_eq_some_iff.mp hj).1
    exact (List.getElem?_inj bound distinct).mp (hj.trans hk.symm)
  · rintro rfl
    exact hk

theorem follows_of_along (wires : Wires level wired drawn) (images : List.Forall₂ Image wired ops)
    {path : Path} {link : Link} {source : String}
    (h : Along (((framed level).map (·.index)).zip (wired.map (·.id))) source path link) :
    Follows level ops path link where
  label := h.label
  sink := by
    obtain ⟨k, hk, hid⟩ := (lookup_zip wires.distinct).mp h.sink
    obtain ⟨w, hw, hsink⟩ := by simpa only [List.getElem?_map, Option.map_eq_some_iff] using hid
    obtain ⟨o, ho, image⟩ := exists_right images hw
    exact ⟨k, o, hasIndex_of_distinct wires.distinct hk, ho, by rw [image.base_eq, ← hsink]; rfl⟩

theorem exists_next {k : Nat} {s : Step} (hs : (framed level)[k]? = some s)
    (hkind : s.kind ≠ .finish) : ∃ next, (framed level)[k + 1]? = some next := by
  have bound := (List.getElem?_eq_some_iff.mp hs).1
  refine ⟨_, List.getElem?_eq_getElem (Nat.lt_of_le_of_ne bound ?_)⟩
  -- The last step of a framed level is its end.
  intro last
  have hlast : (framed level)[level.length + 1]? = some closing := by
    unfold framed
    rw [List.cons_append, List.getElem?_cons_succ, List.getElem?_concat_length]
  rw [length_framed, Nat.succ.injEq] at last
  rw [last, hlast] at hs
  cases hs
  exact hkind rfl

theorem flowsFrom (wires : Wires level wired drawn) (images : List.Forall₂ Image wired ops)
    {k : Nat} {s : Step} {o : Operation} (hs : (framed level)[k]? = some s)
    (ho : ops[k]? = some o) : FlowsFrom level ops k s o := by
  obtain ⟨w, hw, image⟩ := exists_left images ho
  have hbase := image.base_eq
  have alike := alike_step wires hs hw
  have links (hkind : s.kind ≠ .finish) : o.base.links = w.links := by
    rw [hbase]
    exact if_neg (alike.kind ▸ hkind)
  have along := (wires.linked w (List.mem_of_getElem? hw)).imp fun _ _ h =>
    follows_of_along wires images h
  refine ⟨fun id hid => ?_, ?_, fun hkind declared => ?_, fun hkind none => ?_, fun hkind => ?_⟩
  · have given := wires.named.of_supplied hs hid
    rw [List.getElem?_map, hw] at given
    rw [hbase]
    exact Option.some.inj given
  · rw [hbase]
    exact alike.title
  · have hpaths : w.step.paths = s.paths := by
      rw [wires.step_eq hw hs]
      cases (framed level)[k + 1]? with
      | none => rfl
      | some next => simp [leadingTo, declared]
    rw [links hkind, ← hpaths]
    exact along
  · obtain ⟨next, hnext⟩ := exists_next hs hkind
    have hpaths : w.step.paths = [⟨next.index, ""⟩] := by
      rw [wires.step_eq hw hs, hnext]
      simp [leadingTo, none, hkind]
    rw [hpaths] at along
    obtain ⟨link, rest, follows, hrest, hlinks⟩ := List.forall₂_cons_left_iff.mp along
    obtain rfl := List.forall₂_nil_left_iff.mp hrest
    obtain ⟨j, o', hj, ho', hsink⟩ := follows.sink
    obtain rfl := (hj (k + 1)).mp (by rw [hnext]; rfl)
    exact ⟨link, o', (links hkind).trans hlinks, follows.label, ho', hsink⟩
  · rw [hbase]
    exact if_pos (alike.kind.trans hkind)

theorem levelFlows {stepIds : List String} (h : CompilesTo level ops) (distinct : stepIds.Nodup)
    (within : ∀ o ∈ ops, o.base.id ∈ stepIds) : LevelFlows stepIds level ops := by
  obtain ⟨wired, drawn, wires, images⟩ := h.images
  have along : ∀ o ∈ ops, ∀ link ∈ o.base.links, ∃ path,
      Along (((framed level).map (·.index)).zip (wired.map (·.id))) o.base.id path link := by
    intro o ho link hlink
    obtain ⟨k, hk⟩ := List.mem_iff_getElem?.mp ho
    obtain ⟨w, hw, image⟩ := exists_left images hk
    have linked := wires.linked w (List.mem_of_getElem? hw)
    rw [image.base_eq] at hlink ⊢
    simp only [base] at hlink
    split at hlink
    · cases hlink
    · obtain ⟨j, hj⟩ := List.mem_iff_getElem?.mp hlink
      obtain ⟨path, _, h⟩ := exists_left linked hj
      exact ⟨path, h⟩
  exact {
    length := images.length_eq.symm.trans wires.length_eq
    source := fun o ho link hlink => by
      obtain ⟨path, h⟩ := along o ho link hlink
      exact h.source
    sink := fun o ho link hlink => by
      obtain ⟨path, h⟩ := along o ho link hlink
      obtain ⟨k, o', _, ho', hsink⟩ := (follows_of_along wires images h).sink
      have here := List.mem_of_getElem? ho'
      rw [hsink]
      exact ⟨List.count_eq_one_of_mem distinct (within o' here), List.mem_map_of_mem here⟩
    flows := fun k s o hs ho => flowsFrom wires images hs ho }

theorem rel_of_some {α β : Type} {R S : α → β → Prop} {a? : Option α} {b? : Option β}
    (h : Option.Rel R a? b?) (hRS : ∀ {a b}, b? = some b → R a b → S a b) : Option.Rel S a? b? := by
  cases h with
  | none => exact .none
  | some hab => exact .some (hRS rfl hab)

/-- A procedure has levels where its author made them, and in each of them the connections are the
declared paths, or lead to the next step where none is declared, and stay in the level. -/
theorem connections_follow_paths {w : Workflow} {settings : Settings} {p : Procedure}
    (h : w.compile settings = .ok p) (place : List Nat) :
    Option.Rel (LevelFlows p.stepIds) (Step.levelAt w.steps place)
      (Operation.levelAt p.level place) := by
  have distinct : p.stepIds.Nodup := by
    obtain ⟨ids, distinct, bound⟩ := Workflow.ids_count h
    refine List.nodup_iff_count_le_one.mpr fun x => ?_
    have used := bound x
    have once := List.nodup_iff_count_le_one.mp distinct x
    simp only [List.count_append] at *
    omega
  obtain ⟨supplied, r, _, h⟩ := Workflow.compile_ok h
  obtain ⟨q, hlevel, _⟩ := Workflow.gives_drawing h
  refine rel_of_some (compilesTo_levelAt ⟨_, _, hlevel⟩ place) fun hl compiles => ?_
  exact levelFlows compiles distinct fun o ho => id_mem_of_levelAt hl ho

theorem sealChecks_flow : ∃ p ops, Workflow.pumpInspection.compile Workflow.stuttering = .ok p ∧
    Operation.levelAt p.level [2] = some ops ∧ LevelFlows p.stepIds Workflow.sealChecks ops := by
  obtain ⟨p, h⟩ := Workflow.pumpInspection_compiles
  have rel := connections_follow_paths h [2]
  change Option.Rel _ (some Workflow.sealChecks) _ at rel
  generalize hl : Operation.levelAt p.level [2] = ops at rel
  cases rel with
  | some flows => exact ⟨p, _, h, hl, flows⟩

end FieldProcedure
