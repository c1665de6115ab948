import FieldProcedure.Proofs.Digits
import FieldProcedure.Proofs.Rounding

/-! Decimal numerals: how they are written, what number each of them writes, and that a numeral is
taken apart into a coefficient and a power of ten of that number. -/
namespace FieldProcedure.Number

structure Exponent where
  mark : Char
  sign : Sign
  digits : List Char
  mark_letter : mark = 'e' ∨ mark = 'E'
  all_digits : ∀ c ∈ digits, c.isDigit = true
  some_digit : digits ≠ []

/-- A decimal numeral. Digits may be missing before the point or after it, though not in both
places. -/
structure Decimal where
  sign : Sign
  whole : List Char
  fraction : Option (List Char)
  exponent : Option Exponent
  whole_digits : ∀ c ∈ whole, c.isDigit = true
  fraction_digits : ∀ c ∈ fraction.getD [], c.isDigit = true
  some_digit : whole ++ fraction.getD [] ≠ []

namespace Exponent

def text (x : Exponent) : List Char := x.mark :: (x.sign.text ++ x.digits)

def value (x : Exponent) : ℤ :=
  if x.sign.isMinus then -(ofDigits x.digits : ℤ) else ofDigits x.digits

theorem readExponent?_text (x : Exponent) : Literal.readExponent? x.text = some x.value := by
  rw [text, Literal.readExponent?, if_pos (by simpa using x.mark_letter),
    readInt?_text x.sign x.some_digit x.all_digits]
  rfl

end Exponent

namespace Decimal

variable (d : Decimal)

def decimals : List Char := d.fraction.getD []

def scale : ℤ := (d.exponent.map Exponent.value).getD 0

def fractionText : List Char := (d.fraction.map ('.' :: ·)).getD []

def exponentText : List Char := (d.exponent.map Exponent.text).getD []

def unsigned : List Char := d.whole ++ (d.fractionText ++ d.exponentText)

def text : List Char := d.sign.text ++ d.unsigned

def value : ℚ :=
  signed d.sign.isMinus
    ((ofDigits d.whole + ofDigits d.decimals / 10 ^ d.decimals.length) * 10 ^ d.scale)

theorem value_eq : d.value = signed d.sign.isMinus
    (ofDigits (d.whole ++ d.decimals) * 10 ^ (d.scale - d.decimals.length)) := by
  have ten : (10 : ℚ) ^ d.decimals.length ≠ 0 := by positivity
  rw [value, ofDigits_append, zpow_sub₀ (by norm_num), zpow_natCast, Nat.cast_add, Nat.cast_mul,
    cast_tenTo]
  congr 1
  field_simp

theorem readExponent?_exponentText : Literal.readExponent? d.exponentText = some d.scale := by
  unfold exponentText scale
  cases d.exponent with
  | none => rfl
  | some x => exact x.readExponent?_text

theorem head_exponentText : ∀ c ∈ d.exponentText.head?, c = 'e' ∨ c = 'E' := by
  unfold exponentText
  cases d.exponent with
  | none => exact fun c hc => nomatch hc
  | some x =>
    intro c hc
    obtain rfl := Option.mem_some_iff.mp hc
    exact x.mark_letter

theorem head_fractionText : ∀ c ∈ (d.fractionText ++ d.exponentText).head?,
    c = '.' ∨ c = 'e' ∨ c = 'E' := by
  unfold fractionText
  cases d.fraction with
  | none => exact fun c hc => .inr (d.head_exponentText c hc)
  | some ds => exact fun c hc => .inl (Option.mem_some_iff.mp hc).symm

theorem head_unsigned : ∀ c ∈ d.unsigned.head?, c.isDigit = true ∨ c = '.' := by
  intro c hc
  rw [unsigned] at hc
  cases hw : d.whole with
  | cons first rest =>
    rw [hw] at hc
    obtain rfl := Option.mem_some_iff.mp hc
    exact .inl (d.whole_digits first (hw ▸ List.mem_cons_self))
  | nil =>
    cases hf : d.fraction with
    | none => exact absurd (by rw [hw, hf]; rfl) d.some_digit
    | some ds =>
      rw [hw, fractionText, hf] at hc
      exact .inr (Option.mem_some_iff.mp hc).symm

theorem takeSign_text : takeSign d.text = (d.sign.isMinus, d.unsigned) := by
  refine Number.takeSign_text d.sign fun c hc => ?_
  rcases d.head_unsigned c hc with digit | rfl
  · exact not_sign_of_isDigit digit
  · decide

theorem unsigned_ne_nil : d.unsigned ≠ [] := by
  intro empty
  obtain ⟨whole, rest⟩ := List.append_eq_nil_iff.mp empty
  have fraction := (List.append_eq_nil_iff.mp rest).1
  refine d.some_digit ?_
  cases hf : d.fraction with
  | none =>
    rw [whole]
    rfl
  | some ds =>
    rw [fractionText, hf] at fraction
    cases fraction

theorem not_word {words : List (List Char)}
    (letters : words.all (·.head?.any Char.isLower) = true) :
    words.contains (d.unsigned.map Char.toLower) = false := by
  obtain ⟨c, cs, unsigned⟩ := List.exists_cons_of_ne_nil d.unsigned_ne_nil
  have first := d.head_unsigned c (by rw [unsigned]; rfl)
  rw [unsigned, Bool.eq_false_iff]
  intro word
  have lower : c.toLower.isLower = true :=
    List.all_eq_true.mp letters _ (List.contains_iff_mem.mp word)
  rcases first with digit | rfl
  · have low := (isDigit_iff.mp digit).2
    have same : c.toLower = c := by
      refine dif_neg fun upper => ?_
      have high : 65 ≤ c.toNat := UInt32.le_iff_toNat_le.mp upper.1
      omega
    have high : 97 ≤ c.toNat := by
      rw [same] at lower
      exact UInt32.le_iff_toNat_le.mp (of_decide_eq_true (Bool.and_eq_true_iff.mp lower).1)
    omega
  · cases lower

theorem span_digits {ds rest : List Char} (digits : ∀ c ∈ ds, c.isDigit = true)
    (stop : ∀ c ∈ rest.head?, c.isDigit = false) :
    (ds ++ rest).takeWhile Char.isDigit = ds ∧ (ds ++ rest).dropWhile Char.isDigit = rest := by
  rw [List.takeWhile_append_of_pos digits, List.dropWhile_append_of_pos digits]
  cases rest with
  | nil => exact ⟨List.append_nil _, rfl⟩
  | cons c rest =>
    have stops : c.isDigit = false := stop c rfl
    simp [stops]

theorem fraction_split :
    (match d.fractionText ++ d.exponentText with
      | '.' :: r => (r.takeWhile Char.isDigit, r.dropWhile Char.isDigit)
      | r => ([], r)) = (d.decimals, d.exponentText) := by
  have stop : ∀ c ∈ d.exponentText.head?, c.isDigit = false := by
    intro c hc
    rcases d.head_exponentText c hc with rfl | rfl <;> rfl
  cases hf : d.fraction with
  | none =>
    rw [fractionText, decimals, hf]
    change (match d.exponentText with
      | '.' :: r => (r.takeWhile Char.isDigit, r.dropWhile Char.isDigit)
      | r => ([], r)) = ([], d.exponentText)
    split
    · next r point =>
      rcases d.head_exponentText '.' (by rw [point]; rfl) with e | e <;> cases e
    · rfl
  | some ds =>
    rw [fractionText, decimals, hf]
    have digits : ∀ c ∈ ds, c.isDigit = true := by simpa [hf] using d.fraction_digits
    obtain ⟨front, back⟩ := span_digits digits stop
    change ((ds ++ d.exponentText).takeWhile Char.isDigit,
      (ds ++ d.exponentText).dropWhile Char.isDigit) = (ds, d.exponentText)
    rw [front, back]

theorem read?_text : Literal.read? d.text = some (.finite d.sign.isMinus
    (ofDigits (d.whole ++ d.decimals)) (d.scale - d.decimals.length)) := by
  have stop : ∀ c ∈ (d.fractionText ++ d.exponentText).head?, c.isDigit = false := by
    intro c hc
    rcases d.head_fractionText c hc with rfl | rfl | rfl <;> rfl
  obtain ⟨front, back⟩ := span_digits d.whole_digits stop
  have some_digit : (d.whole.isEmpty && d.decimals.isEmpty) = false := by
    have some := d.some_digit
    simpa [decimals, List.append_eq_nil_iff] using some
  rw [Literal.read?, d.takeSign_text]
  dsimp only
  rw [d.not_word (by decide), unsigned, front, back]
  have parts := congrArg (fun p : List Char × List Char =>
    if (d.whole.isEmpty && p.1.isEmpty) = true then none
    else (Literal.readExponent? p.2).map fun e =>
      Literal.finite d.sign.isMinus (ofDigits (d.whole ++ p.1)) (e - p.1.length)) d.fraction_split
  refine parts.trans ?_
  simp only [some_digit, readExponent?_exponentText]
  rfl

/-! Numerals for whole numbers. -/

def IsWhole : Prop := d.fraction = none ∧ d.exponent = none

variable {d}

theorem readInt?_of_isWhole (h : d.IsWhole) :
    ∃ n : Int, readInt? d.text = some n ∧ (n : ℚ) = d.value := by
  obtain ⟨hf, he⟩ := h
  have unsigned : d.unsigned = d.whole := by
    simp [Decimal.unsigned, fractionText, exponentText, hf, he]
  have digits : d.whole ≠ [] := by
    have some := d.some_digit
    rwa [hf, Option.getD_none, List.append_nil] at some
  have scale : d.scale = 0 := by rw [Decimal.scale, he]; rfl
  have decimals : d.decimals = [] := by rw [Decimal.decimals, hf]; rfl
  have read := readInt?_text d.sign digits d.whole_digits
  rw [← unsigned] at read
  refine ⟨_, read, ?_⟩
  rw [value_eq, scale, decimals, List.append_nil, unsigned, signed]
  split <;> simp

theorem readInt?_of_not_isWhole (h : ¬d.IsWhole) : readInt? d.text = none := by
  have mark : ∃ c ∈ d.fractionText ++ d.exponentText, c.isDigit = false := by
    cases rest : d.fractionText ++ d.exponentText with
    | nil =>
      obtain ⟨fraction, exponent⟩ := List.append_eq_nil_iff.mp rest
      refine absurd ⟨?_, ?_⟩ h
      · cases hf : d.fraction with
        | none => rfl
        | some ds =>
          rw [fractionText, hf] at fraction
          cases fraction
      · cases he : d.exponent with
        | none => rfl
        | some x =>
          rw [exponentText, he] at exponent
          cases exponent
    | cons c cs =>
      refine ⟨c, List.mem_cons_self, ?_⟩
      rcases d.head_fractionText c (by rw [rest]; rfl) with rfl | rfl | rfl <;> rfl
  obtain ⟨c, hc, other⟩ := mark
  have mixed : d.unsigned.all Char.isDigit = false := by
    rw [List.all_eq_false]
    exact ⟨c, List.mem_append_right _ hc, by simp [other]⟩
  rw [readInt?, d.takeSign_text]
  simp [mixed]

end Decimal
end FieldProcedure.Number
