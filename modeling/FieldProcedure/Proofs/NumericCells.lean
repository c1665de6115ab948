import FieldProcedure.Intake.Row
import FieldProcedure.Proofs.Decimals

/-! Numeric cells. A whole number of 64 bits is read as it is written. Any other numeral is read
through a double: as the double nearest to its number, if that is a whole number of 64 bits, and not
at all otherwise. So a numeral is read exactly if a double holds its number, and may be read as a
neighbour of its number if none does. -/
namespace FieldProcedure.Intake

open Number

variable {v : ℚ} {n : Int} {d : Decimal}

theorem isSigned64_iff : isSigned64 n = true ↔ -2 ^ 63 ≤ n ∧ n < 2 ^ 63 := by
  rw [isSigned64, Bool.and_eq_true, decide_eq_true_eq, decide_eq_true_eq]
  rfl

theorem not_nearest_of_beyond (beyond : ∀ y, IsDouble y → |y| < |v|) (h : isSigned64 n = true) :
    ¬Nearest v n := by
  intro nearest
  have top : IsDouble (2 ^ 64) := ⟨1, 64, by decide, by decide, by decide, by norm_num⟩
  obtain ⟨low, high⟩ := isSigned64_iff.mp h
  have lowQ : (-2 ^ 63 : ℚ) ≤ n := by exact_mod_cast low
  have highQ : (n : ℚ) < 2 ^ 63 := by exact_mod_cast high
  have far := beyond _ top
  rw [abs_of_pos (by norm_num)] at far
  rcases lt_abs.mp far with above | below
  · have closer := nearest.least _ top
    rw [abs_of_pos (by linarith : v - 2 ^ 64 > 0)] at closer
    linarith [le_abs_self (v - n)]
  · have closer := nearest.least _ top.neg
    rw [abs_of_neg (by linarith : v - -2 ^ 64 < 0)] at closer
    linarith [neg_abs_le (v - n)]

structure IsPlain (d : Decimal) : Prop where
  whole : d.IsWhole
  low : -2 ^ 63 ≤ d.value
  high : d.value < 2 ^ 63

def ReadAs (d : Decimal) (x : ℚ) : Prop :=
  IsPlain d ∧ x = d.value ∨ ¬IsPlain d ∧ Nearest d.value x

theorem readAs_iff_of_plain (h : IsPlain d) {x : ℚ} : ReadAs d x ↔ x = d.value := by
  simp only [ReadAs, h, true_and, not_true, false_and, or_false]

theorem readAs_iff_of_not_plain (h : ¬IsPlain d) {x : ℚ} : ReadAs d x ↔ Nearest d.value x := by
  simp only [ReadAs, h, false_and, not_false_iff, true_and, false_or]

theorem readAs_iff_of_isDouble (h : IsPlain d ∨ IsDouble d.value) {x : ℚ} :
    ReadAs d x ↔ x = d.value := by
  by_cases plain : IsPlain d
  · exact readAs_iff_of_plain plain
  · rw [readAs_iff_of_not_plain plain, nearest_iff_of_isDouble (h.resolve_left plain)]

theorem exact_of_isPlain (h : IsPlain d) : ∃ m : Int,
    (readInt? d.text).filter isSigned64 = some m ∧ isSigned64 m = true ∧ (m : ℚ) = d.value := by
  obtain ⟨m, read, value⟩ := Decimal.readInt?_of_isWhole h.whole
  have small : isSigned64 m = true := by
    have low := h.low
    have high := h.high
    rw [← value] at low high
    exact isSigned64_iff.mpr ⟨by exact_mod_cast low, by exact_mod_cast high⟩
  exact ⟨m, by rw [read, Option.filter_some_pos small], small, value⟩

theorem inexact_of_not_isPlain (h : ¬IsPlain d) : (readInt? d.text).filter isSigned64 = none := by
  by_cases whole : d.IsWhole
  · obtain ⟨m, read, value⟩ := Decimal.readInt?_of_isWhole whole
    rw [read, Option.filter_some_neg]
    refine Bool.eq_false_iff.mpr fun small => h ⟨whole, ?_, ?_⟩
    · rw [← value]
      exact_mod_cast (isSigned64_iff.mp small).1
    · rw [← value]
      exact_mod_cast (isSigned64_iff.mp small).2
  · rw [Decimal.readInt?_of_not_isWhole whole]
    rfl

theorem integerOf_plain (h : IsPlain d) :
    integerOf d.text = .ok n ↔ isSigned64 n = true ∧ (n : ℚ) = d.value := by
  obtain ⟨m, exact, small, value⟩ := exact_of_isPlain h
  simp only [integerOf, exact, Except.ok.injEq]
  rw [← value, Int.cast_inj, eq_comm]
  exact ⟨fun same => ⟨same ▸ small, same⟩, fun same => same.2⟩

theorem integerOf_rounded (h : ¬IsPlain d) :
    integerOf d.text = .ok n ↔ isSigned64 n = true ∧ Nearest d.value n := by
  obtain ⟨x, hx, rounds⟩ := Literal.toBinary64_rounds d.sign.isMinus
    (ofDigits (d.whole ++ d.decimals)) (d.scale - d.decimals.length)
  rw [← d.value_eq] at rounds
  simp only [integerOf, inexact_of_not_isPlain h, d.read?_text, Option.bind_some, hx]
  cases x with
  | infinite negative =>
    refine iff_of_false nofun fun near => ?_
    exact not_nearest_of_beyond rounds near.1 near.2
  | finite negative m e =>
    rw [rounds n, @eq_comm ℚ, ← Binary64.toInt?_eq_some]
    cases (Binary64.finite negative m e).toInt? with
    | none => exact iff_of_false nofun nofun
    | some k =>
      dsimp only
      rw [Option.some_inj]
      split
      · next small =>
        rw [Except.ok.injEq]
        exact ⟨fun same => ⟨same ▸ small, same⟩, fun same => same.2⟩
      · next large => exact iff_of_false nofun fun same => large (same.2 ▸ same.1)

theorem integerOf_ok_iff : integerOf d.text = .ok n ↔ isSigned64 n = true ∧ ReadAs d n := by
  by_cases h : IsPlain d
  · rw [readAs_iff_of_plain h, integerOf_plain h]
  · rw [readAs_iff_of_not_plain h, integerOf_rounded h]

theorem integerOf_error {reason : String} {cs : List Char} (h : integerOf cs = .error reason) :
    reason = notInteger ∨ reason = outOfRange := by
  rw [integerOf] at h
  split at h
  · cases h
  · split at h
    · cases h
      exact .inl rfl
    · split at h
      · cases h
      · cases h
        exact .inr rfl

/-- Numeric cells, whatever numeral stands in them. A cell gives the number that its numeral is read
as if that is a whole number of 64 bits, and is named as at fault otherwise. If the numeral is plain
or a double holds its number, then that number is read or none. -/
theorem numeric_cell_read (cell : String) (d : Decimal)
    (text : Text.strip cell.toList = d.text) (record : Nat) (column : String) :
    (∀ n, parseInteger record column cell = .ok n ↔ isSigned64 n = true ∧ ReadAs d n) ∧
    ((∀ n, isSigned64 n = true → ¬ReadAs d n) →
      ∃ reason ∈ [notInteger, outOfRange],
        parseInteger record column cell = .error (.cell record column cell reason)) ∧
    (IsPlain d ∨ IsDouble d.value →
      ∀ n, parseInteger record column cell = .ok n ↔ isSigned64 n = true ∧ n = d.value) := by
  have read : ∀ n, parseInteger record column cell = .ok n ↔
      isSigned64 n = true ∧ ReadAs d n := by
    intro n
    rw [← integerOf_ok_iff, parseInteger, text]
    cases integerOf d.text <;> simp
  refine ⟨read, fun refused => ?_, fun exact n => ?_⟩
  · cases result : integerOf d.text with
    | ok n =>
      obtain ⟨small, readAs⟩ := integerOf_ok_iff.mp result
      exact absurd readAs (refused n small)
    | error reason =>
      refine ⟨reason, by simpa using integerOf_error result, ?_⟩
      rw [parseInteger, text, result]
  · rw [read, readAs_iff_of_isDouble exact]

def fractional (whole fraction : List Char) (whole_digits : whole.all Char.isDigit = true)
    (fraction_digits : fraction.all Char.isDigit = true) (some_digit : whole ++ fraction ≠ []) :
    Decimal where
  sign := .absent
  whole
  fraction := some fraction
  exponent := none
  whole_digits := List.all_eq_true.mp whole_digits
  fraction_digits := List.all_eq_true.mp fraction_digits
  some_digit

theorem value_fractional {whole fraction : List Char} {whole_digits fraction_digits some_digit} :
    (fractional whole fraction whole_digits fraction_digits some_digit).value =
      ofDigits whole + ofDigits fraction / 10 ^ fraction.length := by
  change ((ofDigits whole + ofDigits fraction / 10 ^ fraction.length : ℚ) * 10 ^ (0 : ℤ)) = _
  rw [zpow_zero, mul_one]

def three : Decimal := fractional ['3'] ['0'] (by decide) (by decide) (by decide)

def half : Decimal := fractional ['0'] ['5'] (by decide) (by decide) (by decide)

theorem spreadsheet_cells_read : parseInteger 1 "StepIndex" " 3.0 " = .ok 3 ∧
    ∃ reason ∈ [notInteger, outOfRange],
      parseInteger 1 "Parent" "0.5" = .error (.cell 1 "Parent" "0.5" reason) := by
  have three_value : three.value = (3 : Int) := by
    have digits : ofDigits ['3'] = 3 ∧ ofDigits ['0'] = 0 := ⟨rfl, rfl⟩
    rw [three, value_fractional, digits.1, digits.2]
    norm_num
  have half_value : half.value = 1 / 2 := by
    have digits : ofDigits ['0'] = 0 ∧ ofDigits ['5'] = 5 := ⟨rfl, rfl⟩
    rw [half, value_fractional, digits.1, digits.2]
    norm_num
  have half_double : IsDouble half.value :=
    ⟨1, -1, by decide, by decide, by decide, by rw [half_value]; norm_num⟩
  constructor
  · have exact : IsPlain three ∨ IsDouble three.value :=
      .inr (three_value ▸ isDouble_intCast (by decide))
    exact ((numeric_cell_read " 3.0 " three (by decide +kernel) 1 "StepIndex").2.2 exact 3).mpr
      ⟨by decide, three_value.symm⟩
  · refine (numeric_cell_read "0.5" half (by decide +kernel) 1 "Parent").2.1 fun n _ readAs => ?_
    rw [readAs_iff_of_isDouble (.inr half_double), half_value] at readAs
    have twice : (2 * n : ℚ) = 1 := by linarith
    have whole : 2 * n = 1 := by exact_mod_cast twice
    omega

def nearlyFive : Decimal :=
  fractional ['4'] (List.replicate 19 '9') (by decide) (by decide) (by decide)

theorem nearlyFive_read_as_five :
    Text.strip "4.9999999999999999999".toList = nearlyFive.text ∧
      (∀ n : Int, n ≠ nearlyFive.value) ∧
      parseInteger 1 "StepIndex" "4.9999999999999999999" = .ok 5 := by
  refine ⟨by decide +kernel, fun n same => ?_, by decide +kernel⟩
  have digits : ofDigits ['4'] = 4 ∧ ofDigits (List.replicate 19 '9') = 9999999999999999999 :=
    ⟨rfl, by decide +kernel⟩
  rw [nearlyFive, value_fractional, digits.1, digits.2, List.length_replicate] at same
  have scaled : (n * 10 ^ 19 : ℚ) = 49999999999999999999 := by
    rw [same]
    norm_num
  have whole : n * 10 ^ 19 = 49999999999999999999 := by exact_mod_cast scaled
  omega

end FieldProcedure.Intake
