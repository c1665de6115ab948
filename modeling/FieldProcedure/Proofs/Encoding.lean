import FieldProcedure.Text.Utf8
import Mathlib.Data.List.Basic

/-! Every text is decoded from its octets. The first octet of a character tells how many there are,
and those after it hold six bits each. -/
namespace FieldProcedure.Text.Utf8

variable {c : Char} {n lead : Nat}

theorem toNat_valid (c : Char) : c.toNat < 0xD800 ∨ 0xDFFF < c.toNat ∧ c.toNat < 0x110000 := c.valid

def tail (n : Nat) : UInt8 := UInt8.ofNat (n % 64 + 128)

theorem bits_tail (n : Nat) : bits (tail n) = n % 64 := by
  simp only [bits, tail, UInt8.toNat_ofNat']
  omega

theorem isTail_tail (n : Nat) : isTail (tail n) = true := by
  simp only [isTail, tail, Bool.and_eq_true, decide_eq_true_eq, UInt8.le_iff_toNat_le,
    UInt8.toNat_ofNat', UInt8.reduceToNat]
  omega

theorem encodeChar_eq (c : Char) : String.utf8EncodeChar c =
    if c.toNat ≤ 0x7F then [UInt8.ofNat c.toNat]
    else if c.toNat ≤ 0x7FF then [UInt8.ofNat (c.toNat / 64 % 32 + 192), tail c.toNat]
    else if c.toNat ≤ 0xFFFF then
      [UInt8.ofNat (c.toNat / 4096 % 16 + 224), tail (c.toNat / 64), tail c.toNat]
    else [UInt8.ofNat (c.toNat / 262144 % 8 + 240), tail (c.toNat / 4096), tail (c.toNat / 64),
      tail c.toNat] := rfl

theorem lt_ofNat {k : UInt8} (h : lead < 256) : UInt8.ofNat lead < k ↔ lead < k.toNat := by
  rw [UInt8.lt_iff_toNat_lt, UInt8.toNat_ofNat', Nat.mod_eq_of_lt h]

theorem le_ofNat {k : UInt8} (h : lead < 256) : UInt8.ofNat lead ≤ k ↔ lead ≤ k.toNat := by
  rw [UInt8.le_iff_toNat_le, UInt8.toNat_ofNat', Nat.mod_eq_of_lt h]

theorem ofNat_le {k : UInt8} (h : lead < 256) : k ≤ UInt8.ofNat lead ↔ k.toNat ≤ lead := by
  rw [UInt8.le_iff_toNat_le, UInt8.toNat_ofNat', Nat.mod_eq_of_lt h]

theorem ofNat_eq {k : UInt8} (h : lead < 256) : UInt8.ofNat lead = k ↔ lead = k.toNat := by
  rw [← UInt8.toNat_inj, UInt8.toNat_ofNat', Nat.mod_eq_of_lt h]

theorem secondOk_tail (small : lead < 256) (e0 : lead = 0xE0 → 0x20 ≤ n % 64)
    (ed : lead = 0xED → n % 64 < 0x20) (f0 : lead = 0xF0 → 0x10 ≤ n % 64)
    (f4 : lead = 0xF4 → n % 64 < 0x10) : secondOk (UInt8.ofNat lead) (tail n) = true := by
  have octet : (tail n).toNat = n % 64 + 128 := by
    rw [tail, UInt8.toNat_ofNat']
    omega
  simp only [secondOk, ofNat_eq small, isTail_tail, UInt8.le_iff_toNat_le, octet,
    UInt8.reduceToNat]
  split
  · next here =>
    have low := e0 here
    simp only [Bool.and_eq_true, decide_eq_true_eq]
    omega
  · split
    · next here =>
      have high := ed here
      simp only [Bool.and_eq_true, decide_eq_true_eq]
      omega
    · split
      · next here =>
        have low := f0 here
        simp only [Bool.and_eq_true, decide_eq_true_eq]
        omega
      · split
        · next here =>
          have high := f4 here
          simp only [Bool.and_eq_true, decide_eq_true_eq]
          omega
        · rfl

/-! A character is read from its octets, whatever comes after them. -/

theorem char?_one (small : lead ≤ 0x7F) (rest : List UInt8) :
    char? (UInt8.ofNat lead :: rest) = some (Char.ofNat lead, rest) := by
  have octet : lead < 256 := by omega
  have first : lead < 128 := by omega
  simp only [char?, lt_ofNat octet, UInt8.toNat_ofNat', Nat.mod_eq_of_lt octet, UInt8.reduceToNat,
    first, if_true]

theorem char?_two (low : 0xC2 ≤ lead) (high : lead ≤ 0xDF) (rest : List UInt8) :
    char? (UInt8.ofNat lead :: tail n :: rest) =
      some (Char.ofNat ((lead - 0xC0) * 64 + n % 64), rest) := by
  have octet : lead < 256 := by omega
  have first : ¬lead < 128 := by omega
  simp only [char?, lt_ofNat octet, le_ofNat octet, ofNat_le octet, isTail_tail, bits_tail,
    UInt8.toNat_ofNat', Nat.mod_eq_of_lt octet, UInt8.reduceToNat, first, low, high, decide_true,
    Bool.and_true, if_true, if_false]

theorem char?_three {m : Nat} (low : 0xE0 ≤ lead) (high : lead ≤ 0xEF)
    (ok : secondOk (UInt8.ofNat lead) (tail m) = true) (rest : List UInt8) :
    char? (UInt8.ofNat lead :: tail m :: tail n :: rest) =
      some (Char.ofNat ((lead - 0xE0) * 4096 + m % 64 * 64 + n % 64), rest) := by
  have octet : lead < 256 := by omega
  have first : ¬lead < 128 := by omega
  have second : ¬lead ≤ 223 := by omega
  simp only [char?, lt_ofNat octet, le_ofNat octet, ofNat_le octet, isTail_tail, bits_tail,
    UInt8.toNat_ofNat', Nat.mod_eq_of_lt octet, UInt8.reduceToNat, first, second, low, high, ok,
    decide_true, decide_false, Bool.and_true, Bool.and_false, Bool.false_eq_true, if_true,
    if_false]

theorem char?_four {k m : Nat} (low : 0xF0 ≤ lead) (high : lead ≤ 0xF4)
    (ok : secondOk (UInt8.ofNat lead) (tail k) = true) (rest : List UInt8) :
    char? (UInt8.ofNat lead :: tail k :: tail m :: tail n :: rest) =
      some (Char.ofNat ((lead - 0xF0) * 262144 + k % 64 * 4096 + m % 64 * 64 + n % 64), rest) := by
  have octet : lead < 256 := by omega
  have first : ¬lead < 128 := by omega
  have second : ¬lead ≤ 223 := by omega
  have third : ¬lead ≤ 239 := by omega
  simp only [char?, lt_ofNat octet, le_ofNat octet, ofNat_le octet, isTail_tail, bits_tail,
    UInt8.toNat_ofNat', Nat.mod_eq_of_lt octet, UInt8.reduceToNat, first, second, third, low,
    high, ok, decide_true, decide_false, Bool.and_true, Bool.and_false, Bool.false_eq_true,
    if_true, if_false]

theorem char?_encodeChar (c : Char) (rest : List UInt8) :
    char? (String.utf8EncodeChar c ++ rest) = some (c, rest) := by
  have valid := toNat_valid c
  rw [encodeChar_eq]
  split
  · next one => rw [List.singleton_append, char?_one one, Char.ofNat_toNat]
  · split
    · have whole : (c.toNat / 64 % 32 + 192 - 192) * 64 + c.toNat % 64 = c.toNat := by omega
      simp only [List.cons_append, List.nil_append]
      rw [char?_two (by omega) (by omega), whole, Char.ofNat_toNat]
    · split
      · have whole : (c.toNat / 4096 % 16 + 224 - 224) * 4096 + c.toNat / 64 % 64 * 64 +
            c.toNat % 64 = c.toNat := by omega
        have ok : secondOk (UInt8.ofNat (c.toNat / 4096 % 16 + 224)) (tail (c.toNat / 64)) = true :=
          secondOk_tail (by omega) (by omega) (by omega) (by omega) (by omega)
        simp only [List.cons_append, List.nil_append]
        rw [char?_three (by omega) (by omega) ok, whole, Char.ofNat_toNat]
      · have whole : (c.toNat / 262144 % 8 + 240 - 240) * 262144 + c.toNat / 4096 % 64 * 4096 +
            c.toNat / 64 % 64 * 64 + c.toNat % 64 = c.toNat := by omega
        have ok : secondOk (UInt8.ofNat (c.toNat / 262144 % 8 + 240)) (tail (c.toNat / 4096)) =
            true := secondOk_tail (by omega) (by omega) (by omega) (by omega) (by omega)
        simp only [List.cons_append, List.nil_append]
        rw [char?_four (by omega) (by omega) ok, whole, Char.ofNat_toNat]

theorem decodeFrom_encode {fuel : Nat} (acc cs : List Char) (h : cs.length ≤ fuel) :
    decodeFrom fuel acc (cs.flatMap String.utf8EncodeChar) = (acc.reverse ++ cs, []) := by
  induction cs generalizing fuel acc with
  | nil => cases fuel <;> simp [decodeFrom, char?]
  | cons c cs ih =>
    cases fuel with
    | zero => cases h
    | succ fuel =>
      rw [List.flatMap_cons, decodeFrom, char?_encodeChar]
      exact (ih (c :: acc) (Nat.le_of_succ_le_succ h)).trans (by simp)

theorem encodeChar_ne_nil (c : Char) : String.utf8EncodeChar c ≠ [] := by
  rw [encodeChar_eq]
  split_ifs <;> exact List.cons_ne_nil _ _

theorem mem_encodeChar {b : UInt8} (h : b ∈ String.utf8EncodeChar c) :
    c.toNat ≤ 0x7F ∧ b.toNat = c.toNat ∨ 0x80 ≤ b.toNat := by
  rw [encodeChar_eq] at h
  split_ifs at h with one two three
  · obtain rfl := List.mem_singleton.mp h
    exact .inl ⟨one, by rw [UInt8.toNat_ofNat']; omega⟩
  all_goals
    simp only [tail, List.mem_cons, List.not_mem_nil, or_false] at h
    right
    rcases h with rfl | rfl | rfl | rfl <;> rw [UInt8.toNat_ofNat'] <;> omega

theorem length_le_encode (cs : List Char) :
    cs.length ≤ (cs.flatMap String.utf8EncodeChar).length := by
  induction cs with
  | nil => exact Nat.le_refl 0
  | cons c cs ih =>
    have some := List.length_pos_iff.mpr (encodeChar_ne_nil c)
    simp only [List.flatMap_cons, List.length_append, List.length_cons]
    omega

theorem decode_encode (s : String) : decode (encode s) = .ok s := by
  rw [decode, decodeAll, encode, decodeFrom_encode [] s.toList (length_le_encode _)]
  exact congrArg Except.ok String.ofList_toList

end FieldProcedure.Text.Utf8
