import FieldProcedure.Proofs.Digits
import FieldProcedure.Proofs.Drawing

/-! The first free draw. Of the next draws, one more than there are identifiers taken, a pool hands
out the first that is free, and if none is free it says so with the last of them. It finds one
whenever these draws are distinct. Numbered identifiers repeat themselves only once their 64-bit
counter has gone round, because padding with zeros keeps the number. -/
namespace FieldProcedure
open Number (twoTo)

namespace Supply

theorem ofDigits_padded (n : Nat) : Number.ofDigits (padded n).toList = n := by
  rw [padded, String.toList_append, String.toList_ofList]
  exact Number.ofDigits_padded _ n

theorem padded_injective : Function.Injective padded := by
  intro m n h
  rw [← ofDigits_padded m, h, ofDigits_padded]

theorem sequential_eq_iff {stem : String} {m n : Nat} :
    sequential stem m = sequential stem n ↔ (m + 1) % twoTo 64 = (n + 1) % twoTo 64 := by
  constructor
  · intro h
    have texts := congrArg String.toList h
    simp only [sequential, String.toList_append, List.append_cancel_left_eq] at texts
    exact padded_injective (String.toList_inj.mp texts)
  · intro h
    simp only [sequential, h]

theorem sequential_ne {stem : String} {m n : Nat} (later : m < n) (round : n < m + twoTo 64) :
    sequential stem m ≠ sequential stem n := by
  have numbers : twoTo 64 = 18446744073709551616 := rfl
  rw [Ne, sequential_eq_iff, numbers]
  rw [numbers] at round
  omega

end Supply

namespace Pool
open Drawing

variable {p q : Pool} {id last : String} {e : CompileError}

theorem seek_fails_last : ∀ {n : Nat} {p : Pool} {last : String},
    p.seek last (n + 1) = (.error e, q) →
      e = .idsExhausted (p.supply (p.drawn + n)) ∧ q = { p with drawn := p.drawn + n + 1 }
  | 0, p, last, h => by
    rw [seek] at h
    split at h
    · cases h
      exact ⟨rfl, rfl⟩
    · cases h
  | n + 1, p, last, h => by
    rw [seek] at h
    split at h
    · obtain ⟨he, hq⟩ := seek_fails_last h
      have shift : p.drawn + 1 + n = p.drawn + (n + 1) := by omega
      rw [shift] at he hq
      exact ⟨he, hq⟩
    · cases h

structure FirstFree (p : Pool) (k : Nat) : Prop where
  before : ∀ j < k, p.supply (p.drawn + j) ∈ p.taken
  free : p.supply (p.drawn + k) ∉ p.taken

theorem FirstFree.unique {j k : Nat} (hj : p.FirstFree j) (hk : p.FirstFree k) : j = k := by
  rcases Nat.lt_trichotomy j k with lt | rfl | gt
  · exact absurd (hk.before j lt) hj.free
  · rfl
  · exact absurd (hj.before k gt) hk.free

theorem fresh_gives_iff : Gives fresh p id q ↔ ∃ k ≤ p.taken.size, p.FirstFree k ∧
    id = p.supply (p.drawn + k) ∧
    q = { p with drawn := p.drawn + k + 1, taken := p.taken.insert id } := by
  constructor
  · intro h
    obtain ⟨k, hk, before, rfl, free, hq⟩ := seek_gives h
    exact ⟨k, Nat.le_of_lt_succ hk, ⟨before, free⟩, rfl, hq⟩
  · rintro ⟨k, hk, first, rfl, rfl⟩
    rcases gives_or_fails fresh p with ⟨id, q, h⟩ | ⟨e, q, h⟩
    · obtain ⟨j, _, before, rfl, free, rfl⟩ := seek_gives h
      obtain rfl := first.unique ⟨before, free⟩
      exact h
    · exact absurd ((seek_fails h).1 k (Nat.lt_succ_of_le hk)) first.free

theorem fresh_fails_iff : Fails fresh p e q ↔
    (∀ k ≤ p.taken.size, p.supply (p.drawn + k) ∈ p.taken) ∧
      e = .idsExhausted (p.supply (p.drawn + p.taken.size)) ∧
      q = { p with drawn := p.drawn + p.taken.size + 1 } := by
  constructor
  · intro h
    exact ⟨fun k hk => (seek_fails h).1 k (Nat.lt_succ_of_le hk), seek_fails_last h⟩
  · rintro ⟨all, rfl, rfl⟩
    rcases gives_or_fails fresh p with ⟨id, q, h⟩ | ⟨e, q, h⟩
    · obtain ⟨k, hk, first, _⟩ := fresh_gives_iff.mp h
      exact absurd (all k hk) first.free
    · obtain ⟨rfl, rfl⟩ := seek_fails_last h
      exact h

theorem fresh_fails_sequential {stem : String} (hs : p.supply = .sequential stem)
    (h : Fails fresh p e q) : twoTo 64 ≤ p.taken.size := by
  by_contra few
  refine fresh_not_fails_of_distinct (fun j k hjk hk => ?_) h
  rw [hs]
  exact Supply.sequential_ne (by omega) (by omega)

theorem exists_hands_sequential {stem : String} {count : Nat} (hs : p.supply = .sequential stem)
    (room : p.taken.size + count ≤ twoTo 64) :
    ∃ ids q, Hands p ids q ∧ ids.length = count := by
  induction count generalizing p with
  | zero => exact ⟨[], p, .nothing p, rfl⟩
  | succ count ih =>
    rcases gives_or_fails fresh p with ⟨id, q, h⟩ | ⟨e, q, h⟩
    · have one : q.taken.size ≤ p.taken.size + 1 := by
        obtain ⟨_, _, _, _, rfl⟩ := fresh_gives_iff.mp h
        exact Std.TreeSet.size_insert_le
      obtain ⟨ids, r, hands, rfl⟩ := ih (p := q) ((fresh_supply h).trans hs) (by omega)
      exact ⟨id :: ids, r, .next h hands, rfl⟩
    · have many := fresh_fails_sequential hs h
      omega

/-- A pool hands out the first free one of its next draws, one more than it has identifiers taken,
and changes nothing else; it fails if and only if none of them is free, and cannot do so if they are
distinct. Numbered identifiers are distinct until their counter has gone round, and until then a
pool of them hands out one after the other, whatever is reserved. -/
theorem fresh_hands_out_first_free (p : Pool) :
    (∀ id q, Gives fresh p id q ↔ ∃ k ≤ p.taken.size, p.FirstFree k ∧
      id = p.supply (p.drawn + k) ∧
      q = { p with drawn := p.drawn + k + 1, taken := p.taken.insert id }) ∧
    (∀ e q, Fails fresh p e q ↔ (∀ k ≤ p.taken.size, p.supply (p.drawn + k) ∈ p.taken) ∧
      e = .idsExhausted (p.supply (p.drawn + p.taken.size)) ∧
      q = { p with drawn := p.drawn + p.taken.size + 1 }) ∧
    ((∀ j k, j < k → k ≤ p.taken.size → p.supply (p.drawn + j) ≠ p.supply (p.drawn + k)) →
      ∃ id q, Gives fresh p id q) ∧
    ∀ stem, p.supply = .sequential stem →
      (∀ m n, m < n → n < m + twoTo 64 → p.supply m ≠ p.supply n) ∧
      (∀ e q, Fails fresh p e q → twoTo 64 < q.drawn) ∧
      ∀ count, p.taken.size + count ≤ twoTo 64 →
        ∃ ids q, Hands p ids q ∧ ids.length = count ∧ ids.Nodup := by
  refine ⟨fun _ _ => fresh_gives_iff, fun _ _ => fresh_fails_iff, fun distinct => ?_,
    fun stem hs => ⟨fun m n later round => ?_, fun e q h => ?_, fun count room => ?_⟩⟩
  · refine (gives_or_fails fresh p).resolve_right ?_
    rintro ⟨e, q, h⟩
    exact fresh_not_fails_of_distinct distinct h
  · rw [hs]
    exact Supply.sequential_ne later round
  · obtain ⟨_, _, rfl⟩ := fresh_fails_iff.mp h
    have many := fresh_fails_sequential hs h
    change twoTo 64 < p.drawn + p.taken.size + 1
    omega
  · obtain ⟨ids, q, hands, length⟩ := exists_hands_sequential hs room
    exact ⟨ids, q, hands, length, hands.nodup⟩

def reserved : Pool := { supply := .sequential "id" : Pool }.reserve ["id-0001", "id-0003"]

theorem reserved_passed_over :
    (∃ q, Gives fresh reserved "id-0002" q) ∧
      (∃ id q, Gives fresh reserved id q) ∧
      (∀ e q, Fails fresh reserved e q → twoTo 64 < q.drawn) ∧
      ∃ ids q, Hands reserved ids q ∧ ids.length = 10000 ∧ ids.Nodup := by
  have size : reserved.taken.size = 2 := by decide +kernel
  have room : 2 + 10000 < twoTo 64 := by decide
  have first : reserved.FirstFree 1 := ⟨by decide +kernel, by decide +kernel⟩
  obtain ⟨gives, -, finds, numbered⟩ := fresh_hands_out_first_free reserved
  obtain ⟨distinct, wraps, hands⟩ := numbered "id" rfl
  refine ⟨⟨_, (gives _ _).mpr ⟨1, by omega, first, by decide +kernel, rfl⟩⟩,
    finds fun j k hjk hk => distinct _ _ (Nat.add_lt_add_left hjk _) ?_, wraps, hands 10000 ?_⟩
  · omega
  · omega

end Pool
end FieldProcedure
