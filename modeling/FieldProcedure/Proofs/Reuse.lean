import FieldProcedure.Proofs.Spending

/-! One pool over any sequence of uses, of which each may fail after it has drawn. Whatever the uses
are, no identifier is generated twice, and none that was reserved before; the identifiers that a
use gives to steps and connections are among those that it generates. -/
namespace FieldProcedure
open Wiring Compilation

def unsupplied (s : Step) (id : String) : List String := if s.suppliedId? = none then [id] else []

def Wired.newIds (w : Wired) : List String := unsupplied w.step w.id ++ w.links.map (·.id)

mutual
def Operation.newIds : Step → Operation → List String
  | s, .simple base _ => unsupplied s base.id ++ base.links.map (·.id)
  | s, .group base _ level =>
    unsupplied s base.id ++ base.links.map (·.id) ++ Operation.newIdsAll (framed s.children) level
def Operation.newIdsAll : List Step → List Operation → List String
  | s :: steps, o :: ops => o.newIds s ++ Operation.newIdsAll steps ops
  | _, _ => []
end

namespace Pool
open Drawing

inductive Use
  | reserve (ids : List String)
  | fresh
  | wire (level : List Step)
  | compile (level : List Step)

namespace Use

def Answer : Use → Type
  | .reserve _ => Unit
  | .fresh => String
  | .wire _ => List Wired
  | .compile _ => List Operation

def perform : (u : Use) → Drawing u.Answer
  | .reserve ids => fun p => (.ok (), p.reserve ids)
  | .fresh => Pool.fresh
  | .wire level => FieldProcedure.wire level
  | .compile level => compileLevel level

def reserved : Use → List String
  | .reserve ids => ids
  | _ => []

def newIds : (u : Use) → u.Answer → List String
  | .reserve _, _ => []
  | .fresh, id => [id]
  | .wire _, wired => List.flatMap Wired.newIds wired
  | .compile level, ops => Operation.newIdsAll (framed level) ops

end Use

/-- A use of a pool, what came of it, and the identifiers that were generated for it, whether they
were given away or not. -/
structure Turn where
  use : Use
  outcome : Except CompileError use.Answer
  generated : List String

inductive Runs : Pool → List Turn → Prop
  | nothing (p : Pool) : Runs p []
  | turn {p q : Pool} {t : Turn} {rest : List Turn} : t.use.perform p = (t.outcome, q) →
    Spends (p.reserve t.use.reserved) t.generated q → Runs q rest → Runs p (t :: rest)

end Pool

namespace Compilation
open Drawing Pool

variable {p q : Pool} {level steps : List Step} {wired : List Wired} {ops : List Operation}
  {drawn ids : List String}

theorem unsupplied_named (h : Named steps ids drawn) (hid : wired.map (·.id) = ids)
    (hsteps : wired.map (·.step.suppliedId?) = steps.map Step.suppliedId?) :
    (wired.flatMap fun w => unsupplied w.step w.id) = drawn := by
  induction h generalizing wired with
  | nil =>
    rw [List.map_eq_nil_iff.mp hid]
    rfl
  | supplied hs _ ih =>
    obtain ⟨w, rest, rfl, -, hrest⟩ := List.map_eq_cons_iff.mp hid
    obtain ⟨hw, hsteps⟩ := List.cons_eq_cons.mp hsteps
    have given : w.step.suppliedId? = some _ := hw.trans hs
    have none : unsupplied w.step w.id = [] := by
      rw [unsupplied, given, if_neg (Option.some_ne_none _)]
    rw [List.flatMap_cons, none, List.nil_append, ih hrest hsteps]
  | drawn hs _ ih =>
    obtain ⟨w, rest, rfl, rfl, hrest⟩ := List.map_eq_cons_iff.mp hid
    obtain ⟨hw, hsteps⟩ := List.cons_eq_cons.mp hsteps
    have own : unsupplied w.step w.id = [w.id] := if_pos (hw.trans hs)
    rw [List.flatMap_cons, own, List.singleton_append, ih hrest hsteps]

theorem newIds_wired (h : Wires level wired drawn) :
    (wired.flatMap Wired.newIds).Perm (drawn ++ linkIds wired) := by
  have same : wired.map (·.step.suppliedId?) = (framed level).map Step.suppliedId? := by
    rw [← map_withDefaults fun next s => (alike_leadingTo next s).suppliedId?, ← h.steps,
      List.map_map]
    rfl
  rw [← unsupplied_named h.named rfl same]
  exact (List.flatMap_append_perm wired _ _).symm

theorem alike_wired (h : Wires level wired drawn) :
    List.Forall₂ (fun s w => Alike s w.step) (framed level) wired := by
  refine List.forall₂_iff_get.mpr ⟨?_, fun k hk hk' => ?_⟩
  · rw [length_framed, h.length_eq]
  · exact alike_step h (List.getElem?_eq_getElem hk) (List.getElem?_eq_getElem hk')

/-- Whatever the level gives away as new is drawn while it is compiled, and drawn for this alone. -/
def DrawsNew (level : List Step) : Prop :=
  ∀ ⦃p ops q⦄, Gives (compileLevel level) p ops q → ∃ drawn, Hands p drawn q ∧
    (Operation.newIdsAll (framed level) ops).Subperm drawn

theorem newIds_base {s : Step} {w : Wired} (alike : Alike s w.step) :
    (unsupplied s (base w).id ++ (base w).links.map (·.id)).Subperm w.newIds := by
  have own : unsupplied s (base w).id = unsupplied w.step w.id := by
    rw [unsupplied, unsupplied, alike.suppliedId?]
    rfl
  have links : ((base w).links.map (·.id)).Subperm (w.links.map (·.id)) := by
    simp only [base]
    split
    · exact List.nil_subperm
    · exact List.Subperm.refl _
  rw [Wired.newIds, own]
  exact (List.subperm_append_left _).mpr links

theorem compileWired_new {s : Step} {w : Wired} {o : Operation} (alike : Alike s w.step)
    (inner : w.step.kind = .group → DrawsNew w.step.children)
    (h : Gives (compileWired w) p o q) :
    ∃ drawn, Hands p drawn q ∧ (o.newIds s).Subperm (w.newIds ++ drawn) := by
  have own := newIds_base alike
  unfold compileWired at h
  split at h
  · next hgroup =>
    obtain ⟨ops, r, hops, h⟩ := gives_bind.mp h
    obtain ⟨rfl, rfl⟩ := gives_pure.mp h
    obtain ⟨drawn, hands, within⟩ := inner hgroup hops
    rw [alike.children] at within
    exact ⟨drawn, hands, own.append within⟩
  · unfold simple at h
    split at h
    · obtain ⟨rfl, rfl⟩ := gives_pure.mp h
      exact ⟨[], .nothing p, by rwa [List.append_nil]⟩
    · exact absurd h gives_throw

theorem compileAll_new (alike : List.Forall₂ (fun s w => Alike s w.step) steps wired)
    (inner : ∀ w ∈ wired, w.step.kind = .group → DrawsNew w.step.children)
    (h : Gives (compileAll wired) p ops q) : ∃ drawn, Hands p drawn q ∧
      (Operation.newIdsAll steps ops).Subperm (wired.flatMap Wired.newIds ++ drawn) := by
  induction alike generalizing p ops with
  | nil =>
    obtain ⟨rfl, rfl⟩ := gives_pure.mp h
    exact ⟨[], .nothing p, List.nil_subperm⟩
  | @cons s w steps wired first _ ih =>
    obtain ⟨o, r, ho, h⟩ := gives_bind.mp h
    obtain ⟨os, r', hos, h⟩ := gives_bind.mp h
    obtain ⟨rfl, rfl⟩ := gives_pure.mp h
    obtain ⟨drawn, hands, within⟩ := compileWired_new first (inner w List.mem_cons_self) ho
    obtain ⟨drawn', hands', within'⟩ := ih (fun w' h' => inner w' (List.mem_cons_of_mem _ h')) hos
    have mixed : (w.newIds ++ drawn ++ (wired.flatMap Wired.newIds ++ drawn')).Perm
        ((w :: wired).flatMap Wired.newIds ++ (drawn ++ drawn')) := by
      rw [List.flatMap_cons]
      refine List.perm_iff_count.mpr fun x => ?_
      simp only [List.count_append]
      omega
    exact ⟨drawn ++ drawn', hands.append hands', (within.append within').trans mixed.subperm⟩

theorem drawsNew (level : List Step) : DrawsNew level := by
  induction level using wiredInduction with
  | h level ih =>
    intro p ops q h
    rw [compileLevel_eq] at h
    obtain ⟨wired, r, hwire, h⟩ := gives_bind.mp h
    obtain ⟨drawn, hands, wires⟩ := wire_gives hwire
    obtain ⟨drawn', hands', within⟩ := compileAll_new (alike_wired wires) (ih wires) h
    have new := (newIds_wired wires).append_right drawn'
    exact ⟨_, hands.append hands', within.trans new.subperm⟩

end Compilation

namespace Pool
open Drawing

variable {p q : Pool} {turns turns' : List Turn}

theorem spends_new {α : Type} {m : Drawing α} {new : α → List String} (only : OnlyDraws m)
    (drawn : ∀ {a q}, Gives m p a q → ∃ ids, Hands p ids q ∧ (new a).Subperm ids) :
    ∃ ids, Spends p ids (m p).2 ∧ ∀ a, (m p).1 = .ok a → (new a).Subperm ids := by
  obtain ⟨ids, spent⟩ := only p
  refine ⟨ids, spent, fun a ha => ?_⟩
  have gives : Gives m p a (m p).2 := Prod.ext ha rfl
  obtain ⟨ids', hands, within⟩ := drawn gives
  rwa [spent.unique hands.spends]

theorem Use.spends (u : Use) (p : Pool) :
    ∃ ids, Spends (p.reserve u.reserved) ids (u.perform p).2 ∧
      ∀ a, (u.perform p).1 = .ok a → (u.newIds a).Subperm ids := by
  cases u with
  | reserve ids => exact ⟨[], .nothing _, fun _ _ => List.nil_subperm⟩
  | fresh => exact spends_new .fresh fun {a q} h => ⟨[a], .one h, List.Subperm.refl _⟩
  | wire level =>
    refine spends_new (wire_onlyDraws level) fun {wired q} h => ?_
    obtain ⟨drawn, hands, wires⟩ := wire_gives h
    exact ⟨_, hands, (newIds_wired wires).subperm⟩
  | compile level => exact spends_new (compileLevel_onlyDraws level) fun h => drawsNew level h

namespace Runs

theorem exists_run (p : Pool) (uses : List Use) :
    ∃ turns, turns.map Turn.use = uses ∧ Runs p turns := by
  induction uses generalizing p with
  | nil => exact ⟨[], rfl, .nothing p⟩
  | cons u uses ih =>
    obtain ⟨ids, spent, _⟩ := u.spends p
    obtain ⟨turns, rfl, runs⟩ := ih (u.perform p).2
    exact ⟨⟨u, (u.perform p).1, ids⟩ :: turns, rfl, .turn rfl spent runs⟩

theorem unique (h : Runs p turns) (h' : Runs p turns')
    (same : turns.map Turn.use = turns'.map Turn.use) : turns = turns' := by
  induction h generalizing turns' with
  | nothing => exact (List.map_eq_nil_iff.mp same.symm).symm
  | @turn p q t rest performed spent _ ih =>
    cases h' with
    | nothing => cases same
    | @turn _ q' t' rest' performed' spent' runs' =>
      obtain ⟨u, outcome, ids⟩ := t
      obtain ⟨u', outcome', ids'⟩ := t'
      obtain ⟨huse, hrest⟩ := List.cons_eq_cons.mp same
      obtain rfl : u = u' := huse
      obtain ⟨rfl, rfl⟩ := Prod.mk.inj (performed.symm.trans performed')
      obtain rfl := spent.unique spent'
      rw [ih runs' hrest]

theorem free (h : Runs p turns) : ∀ id ∈ turns.flatMap Turn.generated, id ∉ p.taken := by
  induction h with
  | nothing => simp
  | @turn p q t rest _ spent _ ih =>
    intro id hid used
    have kept : id ∈ (p.reserve t.use.reserved).taken := mem_reserve.mpr (.inr used)
    rcases List.mem_append.mp hid with here | later
    · exact spent.free id here kept
    · exact ih id later (spent.mem_taken.mpr (.inr kept))

theorem nodup (h : Runs p turns) : (turns.flatMap Turn.generated).Nodup := by
  induction h with
  | nothing => exact List.nodup_nil
  | turn _ spent runs ih =>
    rw [List.flatMap_cons]
    refine spent.nodup.append ih fun id here later => ?_
    exact runs.free id later (spent.mem_taken.mpr (.inl here))

theorem unreserved (h : Runs p turns) :
    turns.Pairwise fun before after => ∀ id ∈ after.generated, id ∉ before.use.reserved := by
  induction h with
  | nothing => exact .nil
  | turn _ spent runs ih =>
    refine .cons (fun t ht id hid used => ?_) ih
    have kept := spent.mem_taken.mpr (.inr (mem_reserve.mpr (.inl used)))
    exact runs.free id (List.mem_flatMap.mpr ⟨t, ht, hid⟩) kept

theorem newIds_subperm (h : Runs p turns) :
    ∀ t ∈ turns, ∀ a, t.outcome = .ok a → (t.use.newIds a).Subperm t.generated := by
  induction h with
  | nothing => simp
  | @turn p q t rest performed spent _ ih =>
    intro t' ht'
    rcases List.mem_cons.mp ht' with rfl | ht'
    · obtain ⟨ids, spent', within⟩ := t'.use.spends p
      rw [performed] at spent' within
      rwa [spent.unique spent']
    · exact ih t' ht'

end Runs

/-- Every sequence of uses has exactly one run, and a run generates nothing twice, nothing that was
taken when it began, and nothing that an earlier use reserved. What a use gives to steps that
supplied no id, to connections or to the caller was generated in that use. -/
theorem nothing_generated_twice (p : Pool) (uses : List Use) :
    (∃! turns, turns.map Turn.use = uses ∧ Runs p turns) ∧
      ∀ turns, Runs p turns →
        (turns.flatMap Turn.generated).Nodup ∧
        (∀ id ∈ turns.flatMap Turn.generated, id ∉ p.taken) ∧
        (turns.Pairwise fun before after => ∀ id ∈ after.generated, id ∉ before.use.reserved) ∧
        ∀ t ∈ turns, ∀ a, t.outcome = .ok a → (t.use.newIds a).Subperm t.generated := by
  constructor
  · obtain ⟨turns, huses, runs⟩ := Runs.exists_run p uses
    refine ⟨turns, ⟨huses, runs⟩, ?_⟩
    rintro turns' ⟨huses', runs'⟩
    exact runs'.unique runs (huses'.trans huses.symm)
  · intro turns runs
    exact ⟨runs.nodup, runs.free, runs.unreserved, runs.newIds_subperm⟩

def danglingValve : List Step := [
  { index := 1, title := "Open the valve" },
  { index := 2, title := "Tight?", kind := .decision, paths := [⟨1, "no"⟩, ⟨7, "yes"⟩] }]

def shift : List Use :=
  [.fresh, .wire danglingValve, .reserve ["id-0008"], .compile Workflow.sealChecks, .fresh]

def stutteringPool : Pool := { supply := Workflow.stuttering.supply }

theorem shift_generated : ∃ turns, turns.map Turn.use = shift ∧ Runs stutteringPool turns ∧
    (turns.flatMap Turn.generated).Nodup ∧
    (turns.Pairwise fun before after => ∀ id ∈ after.generated, id ∉ before.use.reserved) ∧
    ∀ t ∈ turns, ∀ a, t.outcome = .ok a → (t.use.newIds a).Subperm t.generated := by
  obtain ⟨⟨turns, ⟨huses, runs⟩, _⟩, all⟩ := nothing_generated_twice stutteringPool shift
  obtain ⟨distinct, _, unreserved, within⟩ := all turns runs
  exact ⟨turns, huses, runs, distinct, unreserved, within⟩

end Pool
end FieldProcedure
