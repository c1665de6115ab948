import FieldProcedure.Number.Decimal

/-! Decimal digits and the numbers that they write. A number is read back from its digits, also with
zeros in front of them, so numbers with equal digits are equal; and a whole number is read with its
sign, so that it is read back from its text. -/
namespace FieldProcedure.Number

theorem isDigit_iff {c : Char} : c.isDigit = true ↔ 48 ≤ c.toNat ∧ c.toNat ≤ 57 := by
  simp [Char.isDigit, UInt32.le_iff_toNat_le]

theorem ofDigits_eq_ofDigitChars (cs : List Char) : ofDigits cs = Nat.ofDigitChars 10 cs 0 := by
  simp only [ofDigits, digitValue, Nat.ofDigitChars_eq_foldl, Nat.mul_comm]

theorem ofDigits_append (cs ds : List Char) :
    ofDigits (cs ++ ds) = ofDigits cs * tenTo ds.length + ofDigits ds := by
  simp only [ofDigits_eq_ofDigitChars]
  rw [Nat.ofDigitChars_append, Nat.ofDigitChars_eq_ofDigitChars_zero, Nat.mul_comm]
  rfl

theorem ofDigits_padded (zeros n : Nat) :
    ofDigits (List.replicate zeros '0' ++ (toString n).toList) = n := by
  rw [ofDigits_eq_ofDigitChars, Nat.ofDigitChars_append, Nat.ofDigitChars_replicate_zero,
    Nat.mul_zero, Nat.toString_eq_repr, Nat.toList_repr, Nat.ofDigitChars_ten_toDigits]

theorem ofDigits_toString (n : Nat) : ofDigits (toString n).toList = n := ofDigits_padded 0 n

theorem isDigit_of_mem_toString {n : Nat} {c : Char} (h : c ∈ (toString n).toList) :
    c.isDigit = true := by
  rw [Nat.toString_eq_repr, Nat.toList_repr] at h
  exact Nat.isDigit_of_mem_toDigits (by decide) (by decide) h

theorem toString_ne_nil (n : Nat) : (toString n).toList ≠ [] := by
  rw [Nat.toString_eq_repr, Nat.toList_repr]
  exact Nat.toDigits_ne_nil

inductive Sign
  | absent | plus | minus
deriving DecidableEq, Repr

namespace Sign

def text : Sign → List Char
  | absent => []
  | plus => ['+']
  | minus => ['-']

def isMinus (s : Sign) : Bool := s == minus

end Sign

theorem takeSign_text {cs : List Char} (s : Sign) (h : ∀ c ∈ cs.head?, c ≠ '-' ∧ c ≠ '+') :
    takeSign (s.text ++ cs) = (s.isMinus, cs) := by
  cases s with
  | absent =>
    rw [Sign.text, List.nil_append]
    unfold takeSign
    split
    · exact absurd rfl (h '-' rfl).1
    · exact absurd rfl (h '+' rfl).2
    · rfl
  | plus => rfl
  | minus => rfl

theorem not_sign_of_isDigit {c : Char} (h : c.isDigit = true) : c ≠ '-' ∧ c ≠ '+' := by
  constructor <;> rintro rfl <;> cases h

theorem readInt?_text (s : Sign) {ds : List Char} (some : ds ≠ [])
    (digits : ∀ c ∈ ds, c.isDigit = true) :
    readInt? (s.text ++ ds) = .some (if s.isMinus then -(ofDigits ds : Int) else ofDigits ds) := by
  have all : ds.all Char.isDigit = true := List.all_eq_true.mpr digits
  have split := takeSign_text s fun c hc =>
    not_sign_of_isDigit (digits c (List.mem_of_mem_head? hc))
  simp [readInt?, split, some, all]

theorem toString_natCast (m : Nat) : (toString (m : Int)).toList = (toString m).toList := rfl

theorem toString_negSucc (m : Nat) :
    (toString (Int.negSucc m)).toList = '-' :: (toString (m + 1)).toList := by
  change ("-" ++ (m + 1).repr).toList = _
  rw [String.toList_append]
  rfl

theorem readInt?_toString (n : Int) : readInt? (toString n).toList = some n := by
  cases n with
  | ofNat m =>
    have read := readInt?_text .absent (toString_ne_nil m) fun _ => isDigit_of_mem_toString
    rwa [ofDigits_toString] at read
  | negSucc m =>
    have read := readInt?_text .minus (toString_ne_nil (m + 1)) fun _ => isDigit_of_mem_toString
    rw [ofDigits_toString] at read
    rw [toString_negSucc]
    exact read

theorem eq_minus_or_isDigit_of_mem_toString {n : Int} {c : Char} (h : c ∈ (toString n).toList) :
    c = '-' ∨ c.isDigit = true := by
  cases n with
  | ofNat m =>
    rw [Int.ofNat_eq_natCast, toString_natCast] at h
    exact .inr (isDigit_of_mem_toString h)
  | negSucc m =>
    rw [toString_negSucc] at h
    exact (List.mem_cons.mp h).imp_right isDigit_of_mem_toString

end FieldProcedure.Number
