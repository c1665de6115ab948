import FieldProcedure.Proofs.FirstFree
import FieldProcedure.Proofs.Reuse
import FieldProcedure.Proofs.Vetting

/-! The order in which numbers are given away. Level by level, the steps that supply no id are
numbered first, then all paths, and then the levels of the groups in turn; the document comes last.
A number is passed over only if its identifier is taken already, and numbers that were given to the
paths of an authored end are not seen again, because its connections are dropped. -/
namespace FieldProcedure
open Number (twoTo)

inductive Purpose
  | step (s : Step)
  | path (s : Step) (path : Path)
  | document

namespace Purpose
open Wiring

def isKept : Purpose → Bool
  | .path s _ => s.kind ≠ .finish
  | _ => true

def ofStep (s : Step) : List Purpose := s.paths.map (.path s)

def ofLevel (level : List Step) : List Purpose :=
  ((framed level).filter (·.suppliedId?.isNone)).map .step ++
    (withDefaults (framed level)).flatMap ofStep

end Purpose

def Workflow.purposes (w : Workflow) : List Purpose :=
  (Step.levelsFrom w.steps).flatMap Purpose.ofLevel ++ [.document]

namespace Operation

mutual
def levels : Operation → List (List Operation)
  | .simple _ _ => []
  | .group _ _ level => level :: levelsInside level
def levelsInside : List Operation → List (List Operation)
  | [] => []
  | o :: rest => o.levels ++ levelsInside rest
end

def idsOfLevel (level : List Operation) : List String :=
  level.map (·.base.id) ++ level.flatMap (·.base.links.map (·.id))

end Operation

def Procedure.listing (p : Procedure) : List String :=
  (p.level :: Operation.levelsInside p.level).flatMap Operation.idsOfLevel ++ [p.id]

/-- What was drawn for what, in the order of the draws. -/
abbrev Ledger (α : Type) := List (Purpose × α)

def Ledger.kept {α : Type} (ledger : Ledger α) : List α :=
  (ledger.filter (·.1.isKept)).map Prod.snd

namespace Ledger

variable {α β : Type}

theorem kept_append (l l' : Ledger α) : kept (l ++ l') = kept l ++ kept l' := by
  simp only [kept, List.filter_append, List.map_append]

theorem kept_flatMap {γ : Type} (f : γ → Ledger α) (l : List γ) :
    kept (l.flatMap f) = l.flatMap fun x => kept (f x) := by
  simp only [kept, List.filter_flatMap, List.map_flatMap]

theorem kept_of_all {l : Ledger α} (h : ∀ entry ∈ l, entry.1.isKept = true) :
    kept l = l.map Prod.snd := by
  rw [kept, List.filter_eq_self.mpr h]

theorem kept_of_none {l : Ledger α} (h : ∀ entry ∈ l, entry.1.isKept = false) : kept l = [] := by
  rw [kept, List.map_eq_nil_iff, List.filter_eq_nil_iff]
  intro entry hentry
  rw [h entry hentry]
  decide

theorem kept_map (f : α → β) (l : Ledger α) :
    kept (l.map fun entry => (entry.1, f entry.2)) = (kept l).map f := by
  simp only [kept, List.filter_map, List.map_map, Function.comp_def]

theorem exists_numbers {l : Ledger α} {f : β → α} {numbers : List β}
    (h : l.map Prod.snd = numbers.map f) : ∃ l' : Ledger β, l'.map Prod.snd = numbers ∧
      l'.map Prod.fst = l.map Prod.fst ∧ l = l'.map fun entry => (entry.1, f entry.2) := by
  induction l generalizing numbers with
  | nil =>
    obtain rfl := List.map_eq_nil_iff.mp h.symm
    exact ⟨[], rfl, rfl, rfl⟩
  | cons entry rest ih =>
    obtain ⟨n, numbers, rfl, hn, hrest⟩ := List.map_eq_cons_iff.mp h.symm
    obtain ⟨l', rfl, hfst, rfl⟩ := ih hrest.symm
    obtain ⟨purpose, id⟩ := entry
    obtain rfl : f n = id := hn
    exact ⟨(purpose, n) :: l', rfl, congrArg _ hfst, rfl⟩

end Ledger

namespace Compilation
open Drawing Pool Wiring Step

variable {p q : Pool} {level steps : List Step} {wired : List Wired} {ops : List Operation}
  {drawn ids supplied : List String}

theorem filter_named (h : Named steps ids drawn)
    (given : ∀ id ∈ steps.filterMap suppliedId?, id ∈ supplied)
    (free : ∀ id ∈ drawn, id ∉ supplied) : ids.filter (· ∉ supplied) = drawn := by
  induction h with
  | nil => rfl
  | @supplied s steps id ids drawn hs _ ih =>
    rw [List.filterMap_cons_some hs, List.forall_mem_cons] at given
    rw [List.filter_cons_of_neg (by simpa using given.1), ih given.2 free]
  | @drawn s steps id ids drawn hs _ ih =>
    rw [List.filterMap_cons_none hs] at given
    rw [List.forall_mem_cons] at free
    rw [List.filter_cons_of_pos (by simpa using free.1), ih given free.2]

theorem exists_stepLedger (h : Named steps ids drawn) : ∃ l : Ledger String,
    l.map Prod.snd = drawn ∧ l.kept = drawn ∧
      l.map Prod.fst = (steps.filter (·.suppliedId?.isNone)).map .step := by
  induction h with
  | nil => exact ⟨[], rfl, rfl, rfl⟩
  | @supplied s steps id ids drawn hs _ ih =>
    obtain ⟨l, hsnd, hkept, hfst⟩ := ih
    refine ⟨l, hsnd, hkept, ?_⟩
    rw [hfst, List.filter_cons_of_neg (by simp [hs])]
  | @drawn s steps id ids drawn hs _ ih =>
    obtain ⟨l, rfl, hkept, hfst⟩ := ih
    refine ⟨(.step s, id) :: l, rfl, congrArg _ hkept, ?_⟩
    rw [List.map_cons, hfst, List.filter_cons_of_pos (by simp [hs]), List.map_cons]

def linkLedger (w : Wired) : Ledger String :=
  (w.step.paths.zip w.links).map fun (path, link) => (.path w.step path, link.id)

section linkLedger

variable {w : Wired} (h : w.step.paths.length = w.links.length)
include h

theorem linkLedger_ids : (linkLedger w).map Prod.snd = w.links.map (·.id) := by
  calc (linkLedger w).map Prod.snd
      = ((w.step.paths.zip w.links).map Prod.snd).map (·.id) := by
        rw [linkLedger, List.map_map, List.map_map]
        rfl
    _ = w.links.map (·.id) := by rw [List.map_snd_zip (Nat.le_of_eq h.symm)]

theorem linkLedger_purposes : (linkLedger w).map Prod.fst = Purpose.ofStep w.step := by
  calc (linkLedger w).map Prod.fst
      = ((w.step.paths.zip w.links).map Prod.fst).map (.path w.step) := by
        rw [linkLedger, List.map_map, List.map_map]
        rfl
    _ = Purpose.ofStep w.step := by rw [List.map_fst_zip (Nat.le_of_eq h), Purpose.ofStep]

theorem linkLedger_kept : (linkLedger w).kept = (base w).links.map (·.id) := by
  simp only [base]
  split
  · next finish =>
    refine Ledger.kept_of_none fun entry hentry => ?_
    obtain ⟨_, _, rfl⟩ := List.mem_map.mp hentry
    simp [Purpose.isKept, finish]
  · next other =>
    rw [← linkLedger_ids h]
    refine Ledger.kept_of_all fun entry hentry => ?_
    obtain ⟨_, _, rfl⟩ := List.mem_map.mp hentry
    simp [Purpose.isKept, other]

end linkLedger

theorem map_base_id (images : List.Forall₂ Image wired ops) :
    ops.map (·.base.id) = wired.map (·.id) := by
  induction images with
  | nil => rfl
  | cons image _ ih =>
    rw [List.map_cons, List.map_cons, ih, image.base_eq]
    rfl

theorem flatMap_base_links (images : List.Forall₂ Image wired ops) :
    (ops.flatMap fun o => o.base.links.map (·.id)) =
      wired.flatMap fun w => (base w).links.map (·.id) := by
  induction images with
  | nil => rfl
  | cons image _ ih => rw [List.flatMap_cons, List.flatMap_cons, ih, image.base_eq]

theorem exists_wiredLedger (wires : Wires level wired drawn)
    (images : List.Forall₂ Image wired ops)
    (given : ∀ id ∈ level.filterMap suppliedId?, id ∈ supplied)
    (free : ∀ id ∈ drawn ++ linkIds wired, id ∉ supplied) : ∃ l : Ledger String,
      l.map Prod.snd = drawn ++ linkIds wired ∧ l.map Prod.fst = Purpose.ofLevel level ∧
        l.kept = (Operation.idsOfLevel ops).filter (· ∉ supplied) := by
  obtain ⟨l, hsnd, hkept, hfst⟩ := exists_stepLedger wires.named
  have lengths : ∀ w ∈ wired, w.step.paths.length = w.links.length := fun w hw =>
    (wires.linked w hw).length_eq
  have links : (wired.flatMap linkLedger).map Prod.snd = linkIds wired := by
    rw [List.map_flatMap, linkIds]
    exact List.flatMap_congr fun w hw => linkLedger_ids (lengths w hw)
  have purposes : (wired.flatMap linkLedger).map Prod.fst =
      (withDefaults (framed level)).flatMap Purpose.ofStep := by
    rw [← wires.steps, List.map_flatMap, List.flatMap_map]
    exact List.flatMap_congr fun w hw => linkLedger_purposes (lengths w hw)
  have kept : Ledger.kept (wired.flatMap linkLedger) =
      wired.flatMap fun w => (base w).links.map (·.id) := by
    rw [Ledger.kept_flatMap]
    exact List.flatMap_congr fun w hw => linkLedger_kept (lengths w hw)
  -- No connection has an id that was supplied, so the filter takes none of them away.
  have unsupplied : ∀ id ∈ wired.flatMap fun w => (base w).links.map (·.id), id ∉ supplied := by
    intro id hid
    rw [← kept] at hid
    obtain ⟨entry, hentry, rfl⟩ := List.mem_map.mp hid
    refine free _ (List.mem_append_right _ ?_)
    rw [← links]
    exact List.mem_map_of_mem (List.mem_of_mem_filter hentry)
  refine ⟨l ++ wired.flatMap linkLedger, ?_, ?_, ?_⟩
  · rw [List.map_append, hsnd, links]
  · rw [List.map_append, hfst, purposes, Purpose.ofLevel]
  · have steps : (wired.map (·.id)).filter (· ∉ supplied) = drawn := by
      refine filter_named wires.named ?_ fun id hid => free id (List.mem_append_left _ hid)
      rwa [filterMap_framed]
    rw [Ledger.kept_append, hkept, kept, Operation.idsOfLevel, List.filter_append,
      map_base_id images, flatMap_base_links images, steps,
      List.filter_eq_self.mpr fun id hid => by simpa using unsupplied id hid]

/-- Compiled from a pool in which the supplied ids are taken, the level draws for its purposes, and
what is kept of the draws is what the operations show, the supplied ids aside. -/
def Ledgered (level : List Step) : Prop :=
  ∀ ⦃supplied : List String⦄ ⦃p ops q⦄, Gives (compileLevel level) p ops q →
    (∀ id ∈ supplied, id ∈ p.taken) → (∀ id ∈ suppliedFrom level, id ∈ supplied) →
    ∃ l : Ledger String, Hands p (l.map Prod.snd) q ∧
      l.map Prod.fst = (levelsFrom level).flatMap Purpose.ofLevel ∧
      l.kept = ((ops :: Operation.levelsInside ops).flatMap Operation.idsOfLevel).filter
        (· ∉ supplied)

theorem compileWired_ledger {s : Step} {w : Wired} {o : Operation} (alike : Alike s w.step)
    (inner : w.step.kind = .group → Ledgered w.step.children) (h : Gives (compileWired w) p o q)
    (taken : ∀ id ∈ supplied, id ∈ p.taken) (given : ∀ id ∈ s.suppliedInside, id ∈ supplied) :
    ∃ l : Ledger String, Hands p (l.map Prod.snd) q ∧
      l.map Prod.fst = s.levels.flatMap Purpose.ofLevel ∧
      l.kept = (o.levels.flatMap Operation.idsOfLevel).filter (· ∉ supplied) := by
  rw [suppliedInside_eq] at given
  rw [levels_eq]
  unfold compileWired at h
  split at h
  · next hgroup =>
    obtain ⟨ops, r, hops, h⟩ := gives_bind.mp h
    obtain ⟨rfl, rfl⟩ := gives_pure.mp h
    have group := alike.kind ▸ hgroup
    rw [if_pos group] at given ⊢
    rw [alike.children] at hops
    have ledgered := inner hgroup
    rw [alike.children] at ledgered
    exact ledgered hops taken given
  · next hgroup =>
    have simple := alike.kind ▸ hgroup
    rw [if_neg simple]
    unfold Compilation.simple at h
    split at h
    · obtain ⟨rfl, rfl⟩ := gives_pure.mp h
      exact ⟨[], .nothing p, rfl, rfl⟩
    · exact absurd h gives_throw

theorem compileAll_ledger (alike : List.Forall₂ (fun s w => Alike s w.step) steps wired)
    (inner : ∀ w ∈ wired, w.step.kind = .group → Ledgered w.step.children)
    (h : Gives (compileAll wired) p ops q) (taken : ∀ id ∈ supplied, id ∈ p.taken)
    (given : ∀ s ∈ steps, ∀ id ∈ s.suppliedInside, id ∈ supplied) :
    ∃ l : Ledger String, Hands p (l.map Prod.snd) q ∧
      l.map Prod.fst = (levelsInside steps).flatMap Purpose.ofLevel ∧
      l.kept = ((Operation.levelsInside ops).flatMap Operation.idsOfLevel).filter
        (· ∉ supplied) := by
  induction alike generalizing p ops with
  | nil =>
    obtain ⟨rfl, rfl⟩ := gives_pure.mp h
    exact ⟨[], .nothing p, rfl, rfl⟩
  | @cons s w steps wired first _ ih =>
    obtain ⟨o, r, ho, h⟩ := gives_bind.mp h
    obtain ⟨os, r', hos, h⟩ := gives_bind.mp h
    obtain ⟨rfl, rfl⟩ := gives_pure.mp h
    obtain ⟨l, hands, hfst, hkept⟩ :=
      compileWired_ledger first (inner w List.mem_cons_self) ho taken (given s List.mem_cons_self)
    have still : ∀ id ∈ supplied, id ∈ r.taken := fun id hid =>
      hands.spends.mem_taken.mpr (.inr (taken id hid))
    obtain ⟨l', hands', hfst', hkept'⟩ := ih (fun w' h' => inner w' (List.mem_cons_of_mem _ h')) hos
      still fun s' h' => given s' (List.mem_cons_of_mem _ h')
    refine ⟨l ++ l', ?_, ?_, ?_⟩
    · rw [List.map_append]
      exact hands.append hands'
    · rw [List.map_append, hfst, hfst', levelsInside, List.flatMap_append]
    · rw [Ledger.kept_append, hkept, hkept', Operation.levelsInside, List.flatMap_append,
        List.filter_append]

theorem levelsInside_framed (level : List Step) :
    levelsInside (framed level) = levelsInside level := by
  have start : opening.levels = [] := rfl
  have finish : closing.levels = [] := rfl
  rw [levelsInside_eq, levelsInside_eq, framed, List.cons_append, List.flatMap_cons,
    List.flatMap_append, List.flatMap_singleton, start, finish, List.nil_append, List.append_nil]

theorem ledgered (level : List Step) : Ledgered level := by
  induction level using wiredInduction with
  | h level ih =>
    intro supplied p ops q h taken given
    rw [compileLevel_eq] at h
    obtain ⟨wired, r, hwire, h⟩ := gives_bind.mp h
    obtain ⟨drawn, hands, wires⟩ := wire_gives hwire
    rw [suppliedFrom_eq] at given
    obtain ⟨l, hsnd, hfst, hkept⟩ := exists_wiredLedger wires (compileAll_images h)
      (fun id hid => given id (List.mem_append_left _ hid))
      fun id hid used => hands.free id hid (taken id used)
    have still : ∀ id ∈ supplied, id ∈ r.taken := fun id hid =>
      hands.spends.mem_taken.mpr (.inr (taken id hid))
    obtain ⟨l', hands', hfst', hkept'⟩ := compileAll_ledger (alike_wired wires) (ih wires) h still
      (fun s hs id hid => by
        simp only [framed, List.cons_append, List.mem_cons, List.mem_append, List.not_mem_nil,
          or_false] at hs
        rcases hs with rfl | hs | rfl
        · cases hid
        · exact given id (List.mem_append_right _ (List.mem_flatMap.mpr ⟨s, hs, hid⟩))
        · cases hid)
    refine ⟨l ++ l', ?_, ?_, ?_⟩
    · rw [List.map_append, hsnd]
      exact hands.append hands'
    · rw [List.map_append, hfst, hfst', levelsInside_framed, levelsFrom, List.flatMap_cons]
    · rw [Ledger.kept_append, hkept, hkept', List.flatMap_cons, List.filter_append]

end Compilation

namespace Purpose
open Wiring Step

theorem exists_end {w : Workflow} {purpose : Purpose} (h : purpose ∈ w.purposes)
    (dropped : purpose.isKept = false) :
    ∃ level ∈ levelsFrom w.steps, ∃ s ∈ level, s.kind = .finish ∧
      ∃ path ∈ s.paths, purpose = .path s path := by
  obtain ⟨s, path, rfl, hkind⟩ : ∃ s path, purpose = .path s path ∧ s.kind = .finish := by
    cases purpose with
    | path s path => exact ⟨s, path, rfl, by simpa [isKept] using dropped⟩
    | step | document => cases dropped
  obtain ⟨level, hlevel, hs, hpath⟩ : ∃ level ∈ levelsFrom w.steps,
      s ∈ withDefaults (framed level) ∧ path ∈ s.paths := by
    simpa [Workflow.purposes, ofLevel, ofStep] using h
  -- Wiring leaves an end as it is, and the end that closes a level has no path.
  obtain ⟨k, hk⟩ := List.mem_iff_getElem?.mp hs
  rw [getElem?_withDefaults] at hk
  obtain ⟨t, ht, hst⟩ := Option.map_eq_some_iff.mp hk
  obtain rfl : t = s := by
    cases hnext : (framed level)[k + 1]? with
    | none =>
      rw [hnext] at hst
      exact hst
    | some next =>
      have same : (leadingTo next.index t).kind = t.kind :=
        (Compilation.alike_leadingTo next.index t).kind
      rw [hnext] at hst
      subst hst
      have finish : t.kind = .finish := same ▸ hkind
      simp [leadingTo, finish]
  have hmem := List.mem_of_getElem? ht
  simp only [framed, List.cons_append, List.mem_cons, List.mem_append, List.not_mem_nil,
    or_false] at hmem
  rcases hmem with rfl | hmem | rfl
  · cases hkind
  · exact ⟨level, hlevel, t, hmem, hkind, path, hpath, rfl⟩
  · cases hpath

end Purpose

namespace Pool
open Drawing

variable {p q : Pool} {ids : List String}

/-- The numbers of the draws that hit. Any other draw among them met an identifier that was taken at
the start or by an earlier draw. -/
structure Draws (p : Pool) (ids : List String) (q : Pool) (hits : List Nat) : Prop where
  ids : ids = hits.map p.supply
  increasing : hits.Pairwise (· < ·)
  within : ∀ k ∈ hits, p.drawn ≤ k
  last : ∀ k ∈ hits.getLast?, k + 1 = q.drawn
  missed : ∀ k, p.drawn ≤ k → k < q.drawn → k ∉ hits →
    p.supply k ∈ p.taken ∨ ∃ j ∈ hits, j < k ∧ p.supply j = p.supply k

theorem Hands.exists_draws (h : Hands p ids q) : ∃ hits, Draws p ids q hits := by
  induction h with
  | nothing p =>
    refine ⟨[], rfl, .nil, by simp, by simp, fun k hk hk' => ?_⟩
    omega
  | @next p q r id ids hf rest ih =>
    obtain ⟨hits, draws⟩ := ih
    obtain ⟨k, _, first, hid, hq⟩ := fresh_gives_iff.mp hf
    have supply : q.supply = p.supply := fresh_supply hf
    have next : q.drawn = p.drawn + k + 1 := by rw [hq]
    refine ⟨(p.drawn + k) :: hits, ?_, ?_, ?_, ?_, ?_⟩
    · rw [List.map_cons, ← hid, draws.ids, supply]
    · refine List.pairwise_cons.mpr ⟨fun j hj => ?_, draws.increasing⟩
      have later := draws.within j hj
      omega
    · intro j hj
      rcases List.mem_cons.mp hj with rfl | hj
      · exact Nat.le_add_right _ _
      · have later := draws.within j hj
        omega
    · cases hits with
      | nil =>
        -- Nothing is handed out after this one.
        have none : ids = [] := draws.ids
        subst none
        cases rest
        simpa using next.symm
      | cons j hits => simpa only [List.getLast?_cons_cons] using draws.last
    · intro j hj hj' missed
      simp only [List.mem_cons, not_or] at missed
      by_cases before : j < p.drawn + k
      · obtain ⟨i, rfl⟩ := Nat.exists_eq_add_of_le hj
        exact .inl (first.before i (by omega))
      · rcases draws.missed j (by omega) hj' missed.2 with taken | ⟨i, hi, earlier, same⟩
        · rcases (mem_fresh hf).mp taken with here | taken
          · exact .inr ⟨p.drawn + k, List.mem_cons_self, by omega, by rw [← hid, ← here, supply]⟩
          · rw [supply] at taken
            exact .inl taken
        · rw [supply] at same
          exact .inr ⟨i, List.mem_cons_of_mem _ hi, earlier, same⟩

end Pool

def Supply.numbered (stem : String) (n : Nat) : String := stem ++ "-" ++ padded (n % twoTo 64)

open Drawing Pool Step in
/-- How the identifiers of a procedure are numbered: what was drawn, and for what, when it was
compiled with numbered identifiers. -/
structure Numbering (w : Workflow) (settings : Settings) (stem : String) (p : Procedure)
    (ledger : Ledger Nat) : Prop where
  drawn : ∃ supplied q, Vetting.suppliedIds w.steps = .ok supplied ∧
    Gives (w.drawing settings) (Workflow.poolWith settings supplied) p q ∧
    Hands (Workflow.poolWith settings supplied)
      (ledger.map fun entry => Supply.numbered stem entry.2) q
  purposes : ledger.map Prod.fst = w.purposes
  increasing : (ledger.map Prod.snd).Pairwise (· < ·)
  shown : p.listing.filter (· ∉ suppliedFrom w.steps) =
    (Ledger.kept ledger).map (Supply.numbered stem)
  /-- The document is numbered last, and each number up to its own that is not shown is accounted
  for, until the counter has gone round. -/
  complete : ∃ last, ledger.getLast? = some (.document, last) ∧ p.id = Supply.numbered stem last ∧
    ∀ n, 0 < n → n ≤ last → n ∉ Ledger.kept ledger →
      Supply.numbered stem n ∈ suppliedFrom w.steps ∨
      (∃ level ∈ levelsFrom w.steps, ∃ s ∈ level, s.kind = .finish ∧
        ∃ path ∈ s.paths, (.path s path, n) ∈ ledger) ∨
      twoTo 64 < n

section
open Drawing Pool Step

variable {w : Workflow} {settings : Settings} {stem : String} {p : Procedure}

theorem Workflow.exists_ledger (h : w.compile settings = .ok p) :
    ∃ supplied q, Vetting.suppliedIds w.steps = .ok supplied ∧
      Gives (w.drawing settings) (poolWith settings supplied) p q ∧
      ∃ l : Ledger String, Hands (poolWith settings supplied) (l.map Prod.snd) q ∧
        l.map Prod.fst = w.purposes ∧ l.getLast? = some (.document, p.id) ∧
        l.kept = p.listing.filter (· ∉ suppliedFrom w.steps) := by
  obtain ⟨supplied, q, hv, hp⟩ := compile_ok h
  obtain ⟨r, hlevel, hid⟩ := gives_drawing hp
  obtain ⟨-, perm⟩ := Vetting.suppliedIds_ok hv
  have taken : ∀ id ∈ suppliedFrom w.steps, id ∈ (poolWith settings supplied).taken :=
    fun id hid => mem_reserve.mpr (.inl (perm.mem_iff.mpr hid))
  obtain ⟨l, hands, hfst, hkept⟩ := Compilation.ledgered w.steps hlevel taken fun _ h => h
  have all := hands.append (.one hid)
  have own : p.id ∉ suppliedFrom w.steps := fun used =>
    all.free p.id (by simp) (taken p.id used)
  refine ⟨supplied, q, hv, hp, l ++ [(.document, p.id)], ?_, ?_, ?_, ?_⟩
  · rw [List.map_append]
    exact all
  · rw [List.map_append, hfst]
    rfl
  · exact List.getLast?_concat
  · rw [Ledger.kept_append, hkept, Procedure.listing, List.filter_append,
      List.filter_cons_of_pos (by simpa using own)]
    rfl

theorem Workflow.missed_number {ids supplied : List String} {q : Pool} {hits : List Nat} {n : Nat}
    (hs : settings.supply = .sequential stem)
    (draws : Draws (poolWith settings supplied) ids q hits) (positive : 0 < n) (hn : n ≤ q.drawn)
    (missed : n ∉ hits.map (· + 1)) : Supply.numbered stem n ∈ supplied ∨ twoTo 64 < n := by
  obtain ⟨k, rfl⟩ := Nat.exists_eq_add_one_of_ne_zero (Nat.ne_of_gt positive)
  have supply : (poolWith settings supplied).supply = .sequential stem := hs
  have other : k ∉ hits := fun hit => missed (List.mem_map_of_mem hit)
  rcases draws.missed k (Nat.zero_le k) hn other with taken | ⟨j, _, earlier, same⟩
  · rw [supply] at taken
    exact .inl ((mem_reserve.mp taken).resolve_right Std.TreeSet.not_mem_emptyc)
  · rw [supply] at same
    refine .inr ?_
    by_contra fresh
    exact Supply.sequential_ne earlier (by omega) same

theorem numbered_in_order (hs : settings.supply = .sequential stem)
    (h : w.compile settings = .ok p) : ∃ ledger, Numbering w settings stem p ledger := by
  obtain ⟨supplied, q, hv, hp, l, hands, purposes, last, shown⟩ := Workflow.exists_ledger h
  obtain ⟨hits, draws⟩ := hands.exists_draws
  obtain ⟨-, perm⟩ := Vetting.suppliedIds_ok hv
  have texts : l.map Prod.snd = (hits.map (· + 1)).map (Supply.numbered stem) := by
    rw [draws.ids, List.map_map]
    exact List.map_congr_left fun k _ => congrFun hs k
  obtain ⟨ledger, numbers, hfst, rfl⟩ := Ledger.exists_numbers texts
  rw [hfst.symm] at purposes
  obtain ⟨⟨purpose, n⟩, hlast, hentry⟩ := Option.map_eq_some_iff.mp (List.getLast?_map ▸ last)
  obtain ⟨rfl, hid⟩ := Prod.mk.inj hentry
  have bound : n = q.drawn := by
    have final := congrArg List.getLast? numbers
    rw [List.getLast?_map, List.getLast?_map, hlast] at final
    obtain ⟨k, hk, hkn⟩ := Option.map_eq_some_iff.mp final.symm
    exact hkn.symm.trans (draws.last k hk)
  exact ⟨ledger, {
    drawn := ⟨supplied, q, hv, hp, by rwa [List.map_map] at hands⟩
    purposes := purposes
    increasing := by
      rw [numbers]
      exact draws.increasing.map _ fun _ _ => Nat.succ_lt_succ
    shown := by rw [← shown, Ledger.kept_map]
    complete := by
      refine ⟨n, hlast, hid.symm, fun m positive hm unseen => ?_⟩
      by_cases hit : m ∈ ledger.map Prod.snd
      · obtain ⟨⟨purpose, _⟩, hentry, rfl⟩ := List.mem_map.mp hit
        have dropped : purpose.isKept = false := by
          refine Bool.eq_false_iff.mpr fun kept => unseen ?_
          exact List.mem_map_of_mem (List.mem_filter.mpr ⟨hentry, kept⟩)
        have purposed : purpose ∈ w.purposes := purposes ▸ List.mem_map_of_mem hentry
        obtain ⟨level, hlevel, s, hs, finish, path, hpath, rfl⟩ :=
          Purpose.exists_end purposed dropped
        exact .inr (.inl ⟨level, hlevel, s, hs, finish, path, hpath, hentry⟩)
      · rw [numbers] at hit
        rcases Workflow.missed_number hs draws positive (bound ▸ hm) hit with given | round
        · exact .inl (perm.mem_iff.mp given)
        · exact .inr (.inr round) }⟩

def Workflow.numberedFrom (stem : String) : Settings where
  supply := .sequential stem
  modified := ⟨2024, 3, 1, 9, 30, 15, 0⟩

theorem pumpInspection_numbered :
    ∃ p ledger, Workflow.pumpInspection.compile (Workflow.numberedFrom "id") = .ok p ∧
      Numbering Workflow.pumpInspection (Workflow.numberedFrom "id") "id" p ledger := by
  have passes : (Workflow.pumpInspection.compile (Workflow.numberedFrom "id")).isOk = true := by
    decide +kernel
  cases h : Workflow.pumpInspection.compile (Workflow.numberedFrom "id") with
  | error e =>
    rw [h] at passes
    cases passes
  | ok p =>
    have supply : (Workflow.numberedFrom "id").supply = .sequential "id" := rfl
    obtain ⟨ledger, numbering⟩ := numbered_in_order supply h
    exact ⟨p, ledger, rfl, numbering⟩

end

end FieldProcedure
