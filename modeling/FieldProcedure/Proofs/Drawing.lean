import FieldProcedure.Identifier
import Mathlib.Data.List.Nodup
import Mathlib.Data.List.Perm.Subperm

/-! Runs of drawings. A run that succeeds leaves a pool that has handed out some identifiers, in
some order; each of them was free before, so no two are equal. A pool whose supply does not repeat
itself never runs dry, because a draw can miss at most once for each identifier that is taken. -/
namespace FieldProcedure

variable {α β : Type}

def Drawing.Gives (m : Drawing α) (p : Pool) (a : α) (q : Pool) : Prop := m p = (.ok a, q)

def Drawing.Fails (m : Drawing α) (p : Pool) (e : CompileError) (q : Pool) : Prop :=
  m p = (.error e, q)

namespace Drawing

variable {m : Drawing α} {f : α → Drawing β} {a a' : α} {b : β} {e e' : CompileError} {p q r : Pool}

theorem gives_or_fails (m : Drawing α) (p : Pool) :
    (∃ a q, Gives m p a q) ∨ ∃ e q, Fails m p e q :=
  match h : m p with
  | (.ok a, q) => .inl ⟨a, q, h⟩
  | (.error e, q) => .inr ⟨e, q, h⟩

@[simp]
theorem gives_pure : Gives (pure a) p a' q ↔ a = a' ∧ p = q := by
  constructor
  · rintro ⟨⟩
    exact ⟨rfl, rfl⟩
  · rintro ⟨rfl, rfl⟩
    rfl

@[simp]
theorem gives_throw : ¬ Gives (throw e : Drawing α) p a q := by
  rintro ⟨⟩

@[simp]
theorem fails_pure : ¬ Fails (pure a) p e q := by
  rintro ⟨⟩

theorem bind_run (m : Drawing α) (f : α → Drawing β) (p : Pool) :
    (m >>= f) p = match m p with
      | (.ok a, q) => f a q
      | (.error e, q) => (.error e, q) := by
  change (ExceptT.bindCont f (m p).1) (m p).2 = _
  rcases m p with ⟨_ | _, _⟩ <;> rfl

theorem gives_bind :
    Gives (m >>= f) p b r ↔ ∃ a q, Gives m p a q ∧ Gives (f a) q b r := by
  simp only [Gives, bind_run]
  constructor
  · intro h
    split at h
    · next a q hm => exact ⟨a, q, hm, h⟩
    · cases h
  · rintro ⟨a, q, hm, hf⟩
    rw [hm]
    exact hf

theorem fails_bind :
    Fails (m >>= f) p e r ↔ Fails m p e r ∨ ∃ a q, Gives m p a q ∧ Fails (f a) q e r := by
  simp only [Gives, Fails, bind_run]
  constructor
  · intro h
    split at h
    · next a q hm => exact .inr ⟨a, q, hm, h⟩
    · next e' q hm => exact .inl (hm.trans (by cases h; rfl))
  · rintro (hm | ⟨a, q, hm, hf⟩)
    · rw [hm]
    · rw [hm]
      exact hf

theorem bind_congr_of_gives {g : α → Drawing β} (h : ∀ a q, Gives m p a q → f a q = g a q) :
    (m >>= f) p = (m >>= g) p := by
  rw [bind_run, bind_run]
  split
  · next a q hm => exact h a q hm
  · rfl

end Drawing

namespace Pool
open Drawing

variable {p q r : Pool} {last id : String} {e : CompileError} {ids ids' : List String}

theorem mem_reserve : ∀ {ids : List String} {p : Pool} {x : String},
    x ∈ (p.reserve ids).taken ↔ x ∈ ids ∨ x ∈ p.taken
  | [], _, _ => by simp [reserve]
  | id :: ids, p, x => by
    have ih := @mem_reserve ids { p with taken := p.taken.insert id } x
    simp only [reserve] at ih
    simp only [reserve, List.foldl_cons, ih, Std.TreeSet.mem_insert,
      Std.LawfulEqCmp.compare_eq_iff_eq, List.mem_cons]
    tauto

theorem seek_gives : ∀ {n : Nat} {p : Pool} {last : String}, p.seek last n = (.ok id, q) →
    ∃ k < n, (∀ j < k, p.supply (p.drawn + j) ∈ p.taken) ∧ p.supply (p.drawn + k) = id ∧
      id ∉ p.taken ∧ q = { p with drawn := p.drawn + k + 1, taken := p.taken.insert id }
  | 0, _, _, h => by cases h
  | n + 1, p, last, h => by
    rw [seek] at h
    split at h
    · next used =>
      -- The rest of the search begins one draw later.
      obtain ⟨k, hk, before, hid, free, rfl⟩ := seek_gives h
      have shift : ∀ j, p.drawn + 1 + j = p.drawn + (j + 1) := by omega
      refine ⟨k + 1, by omega, ?_, shift k ▸ hid, free, by simp only [shift, Nat.add_assoc]⟩
      rintro (_ | j) hj
      · exact used
      · exact shift j ▸ before j (by omega)
    · next free =>
      cases h
      exact ⟨0, by omega, by simp, rfl, free, rfl⟩

theorem seek_fails : ∀ {n : Nat} {p : Pool} {last : String}, p.seek last n = (.error e, q) →
    (∀ k < n, p.supply (p.drawn + k) ∈ p.taken) ∧ ∃ x, e = .idsExhausted x
  | 0, _, last, h => by
    cases h
    exact ⟨by omega, last, rfl⟩
  | n + 1, p, last, h => by
    rw [seek] at h
    split at h
    · next used =>
      obtain ⟨all, he⟩ := seek_fails h
      refine ⟨?_, he⟩
      rintro (_ | k) hk
      · exact used
      · have later := all k (by omega)
        rwa [show p.drawn + 1 + k = p.drawn + (k + 1) by omega] at later
    · cases h

theorem fresh_free (h : Gives fresh p id q) : id ∉ p.taken := by
  obtain ⟨_, _, _, _, free, _⟩ := seek_gives h
  exact free

theorem fresh_drawn (h : Gives fresh p id q) : ∃ n, p.supply n = id := by
  obtain ⟨k, _, _, drawn, _, _⟩ := seek_gives h
  exact ⟨p.drawn + k, drawn⟩

theorem fresh_supply (h : Gives fresh p id q) : q.supply = p.supply := by
  obtain ⟨_, _, _, _, _, rfl⟩ := seek_gives h
  rfl

theorem mem_fresh (h : Gives fresh p id q) {x : String} : x ∈ q.taken ↔ x = id ∨ x ∈ p.taken := by
  obtain ⟨_, _, _, _, _, rfl⟩ := seek_gives h
  rw [Std.TreeSet.mem_insert, Std.LawfulEqCmp.compare_eq_iff_eq, eq_comm]

theorem fresh_exhausted (h : Fails fresh p e q) : ∃ x, e = .idsExhausted x := (seek_fails h).2

theorem fresh_not_fails_of_distinct (distinct : ∀ j k, j < k → k ≤ p.taken.size →
    p.supply (p.drawn + j) ≠ p.supply (p.drawn + k)) : ¬ Fails fresh p e q := by
  intro h
  have taken := (seek_fails h).1
  -- All of them missed, so the taken identifiers would be one more than they are.
  let drawn := (List.range (p.taken.size + 1)).map fun k => p.supply (p.drawn + k)
  have nodup : drawn.Nodup := by
    refine List.pairwise_map.mpr (List.pairwise_lt_range.imp_of_mem fun _ hk hjk => ?_)
    exact distinct _ _ hjk (Nat.le_of_lt_succ (List.mem_range.mp hk))
  have within : drawn ⊆ p.taken.toList := by
    intro x hx
    obtain ⟨k, hk, rfl⟩ := List.mem_map.mp hx
    exact Std.TreeSet.mem_toList.mpr (taken k (List.mem_range.mp hk))
  have bound := (nodup.subperm within).length_le
  simp only [drawn, List.length_map, List.length_range, Std.TreeSet.length_toList] at bound
  omega

theorem fresh_not_fails (hs : Function.Injective p.supply) : ¬ Fails fresh p e q := by
  refine fresh_not_fails_of_distinct fun j k hjk _ same => ?_
  have equal := hs same
  omega

/-- The pool hands out these identifiers, in this order, and is the second pool after that. -/
inductive Hands : Pool → List String → Pool → Prop
  | nothing (p : Pool) : Hands p [] p
  | next {p q r : Pool} {id : String} {ids : List String} :
    Gives fresh p id q → Hands q ids r → Hands p (id :: ids) r

namespace Hands

theorem one (h : Gives fresh p id q) : Hands p [id] q := .next h (.nothing q)

theorem append (h : Hands p ids q) (h' : Hands q ids' r) : Hands p (ids ++ ids') r := by
  induction h with
  | nothing => exact h'
  | next hf _ ih => exact .next hf (ih h')

theorem free (h : Hands p ids q) : ∀ x ∈ ids, x ∉ p.taken := by
  induction h with
  | nothing => simp
  | next hf _ ih =>
    intro x hx used
    rcases List.mem_cons.mp hx with rfl | hx
    · exact fresh_free hf used
    · exact ih x hx ((mem_fresh hf).mpr (.inr used))

theorem nodup (h : Hands p ids q) : ids.Nodup := by
  induction h with
  | nothing => exact List.nodup_nil
  | next hf rest ih =>
    refine List.nodup_cons.mpr ⟨fun again => ?_, ih⟩
    exact rest.free _ again ((mem_fresh hf).mpr (.inl rfl))

end Hands
end Pool

namespace Drawing

/-- The drawing keeps the supply, and nothing in it fails but a draw from a pool of that supply. -/
structure Steady (m : Drawing α) : Prop where
  supply : ∀ {p a q}, Gives m p a q → q.supply = p.supply
  fails : ∀ {p e q}, Fails m p e q → ∃ r s, r.supply = p.supply ∧ Fails Pool.fresh r e s

namespace Steady

variable {m : Drawing α} {f : α → Drawing β} {p q : Pool} {e : CompileError}

theorem pure (a : α) : Steady (pure a : Drawing α) where
  supply h := by
    obtain ⟨_, rfl⟩ := gives_pure.mp h
    rfl
  fails h := absurd h fails_pure

theorem fresh : Steady Pool.fresh where
  supply := Pool.fresh_supply
  fails h := ⟨_, _, rfl, h⟩

theorem bind (hm : Steady m) (hf : ∀ {p a q}, Gives m p a q → Steady (f a)) :
    Steady (m >>= f) where
  supply h := by
    obtain ⟨a, q, ha, hb⟩ := gives_bind.mp h
    exact ((hf ha).supply hb).trans (hm.supply ha)
  fails h := by
    obtain ha | ⟨a, q, ha, hb⟩ := fails_bind.mp h
    · exact hm.fails ha
    · obtain ⟨r, s, hr, hfail⟩ := (hf ha).fails hb
      exact ⟨r, s, hr.trans (hm.supply ha), hfail⟩

theorem exhausted (hm : Steady m) (h : Fails m p e q) : ∃ x, e = .idsExhausted x := by
  obtain ⟨_, _, _, hfail⟩ := hm.fails h
  exact Pool.fresh_exhausted hfail

theorem gives (hm : Steady m) (hs : Function.Injective p.supply) : ∃ a q, Gives m p a q := by
  refine (gives_or_fails m p).resolve_right ?_
  rintro ⟨e, q, h⟩
  obtain ⟨r, s, hr, hfail⟩ := hm.fails h
  exact Pool.fresh_not_fails (hr ▸ hs) hfail

end Steady
end Drawing
end FieldProcedure
