import FieldProcedure.Number.Decimal
import Mathlib.Algebra.Order.Field.Basic
import Mathlib.Algebra.Order.Field.Power
import Mathlib.Algebra.Order.Ring.Rat
import Mathlib.Tactic.FieldSimp
import Mathlib.Tactic.Linarith
import Mathlib.Tactic.Positivity
import Mathlib.Tactic.Ring

/-! Correct rounding. The double that a quotient of whole numbers is rounded to is the one nearest
to it among all finite doubles, and the even one if two are equally near; and there is none if the
quotient lies beyond them all. -/
namespace FieldProcedure.Number

variable {v x y : ℚ} {k f e : ℤ} {m : ℕ}

/-- A number as a double has it: a significand of 53 bits, and a power of two within the range of
exponents. -/
structure Represents (x : ℚ) (k f : ℤ) : Prop where
  bits : |k| < 2 ^ 53
  low : -1074 ≤ f
  high : f ≤ 971
  value : x = k * 2 ^ f

def IsDouble (x : ℚ) : Prop := ∃ k f, Represents x k f

/-- A double stores the significand of the least exponent, which is even if any is. -/
def IsEvenDouble (x : ℚ) : Prop := ∃ k f, Represents x k f ∧ Even k

structure Nearest (v x : ℚ) : Prop where
  double : IsDouble x
  least : ∀ y, IsDouble y → |v - x| ≤ |v - y|
  even : ∀ y, IsDouble y → y ≠ x → |v - y| = |v - x| → IsEvenDouble x

theorem nearest_iff_of_isDouble (h : IsDouble v) : Nearest v x ↔ x = v := by
  constructor
  · intro nearest
    have distance := nearest.least v h
    rw [sub_self, abs_zero] at distance
    exact (sub_eq_zero.mp (abs_nonpos_iff.mp distance)).symm
  · rintro rfl
    refine ⟨h, fun y _ => ?_, fun y _ other same => ?_⟩
    · rw [sub_self, abs_zero]
      exact abs_nonneg _
    · rw [sub_self, abs_zero, abs_eq_zero, sub_eq_zero] at same
      exact absurd same.symm other

theorem isDouble_intCast {n : ℤ} (h : |n| ≤ 2 ^ 53) : IsDouble n := by
  rcases h.lt_or_eq with bits | power
  · exact ⟨n, 0, bits, by decide, by decide, by rw [zpow_zero, mul_one]⟩
  · rcases (abs_eq (by decide)).mp power with rfl | rfl
    · exact ⟨1, 53, by decide, by decide, by decide, by norm_num⟩
    · exact ⟨-1, 53, by decide, by decide, by decide, by norm_num⟩

/-! Doubles come in pairs of a number and its negative. -/

theorem Represents.neg (h : Represents x k f) : Represents (-x) (-k) f where
  bits := by rw [abs_neg]; exact h.bits
  low := h.low
  high := h.high
  value := by rw [h.value]; push_cast; ring

theorem IsDouble.neg (h : IsDouble x) : IsDouble (-x) :=
  let ⟨k, f, represents⟩ := h
  ⟨-k, f, represents.neg⟩

theorem abs_neg_sub (v x : ℚ) : |-v - x| = |v - -x| := by
  rw [← abs_neg]
  ring_nf

theorem Nearest.neg (h : Nearest v x) : Nearest (-v) (-x) where
  double := h.double.neg
  least y hy := by
    rw [abs_neg_sub, abs_neg_sub, neg_neg]
    exact h.least (-y) hy.neg
  even y hy other same := by
    rw [abs_neg_sub, abs_neg_sub, neg_neg] at same
    have other' : -y ≠ x := fun eq => other (by rw [← eq, neg_neg])
    obtain ⟨k, f, represents, even⟩ := h.even (-y) hy.neg other' same
    exact ⟨-k, f, represents.neg, even.neg⟩

theorem nearest_neg_iff : Nearest (-v) x ↔ Nearest v (-x) := by
  constructor
  · exact fun h => neg_neg v ▸ h.neg
  · exact fun h => neg_neg x ▸ h.neg

def signed (negative : Bool) (x : ℚ) : ℚ := if negative then -x else x

theorem abs_signed (negative : Bool) (x : ℚ) : |signed negative x| = |x| := by
  cases negative
  · rfl
  · exact abs_neg x

/-! Rounding on a grid. -/

/-- A number rounded on the grid of the multiples of a power of two: to the nearest multiple, and to
an even one on a tie. The grid holds all doubles near the number. -/
structure GridRounded (v : ℚ) (m : ℕ) (e : ℤ) : Prop where
  low : -1074 ≤ e
  fine : e = -1074 ∨ 2 ^ 52 * 2 ^ e ≤ v
  near : |v - m * 2 ^ e| ≤ 2 ^ e / 2
  even : |v - m * 2 ^ e| = 2 ^ e / 2 → Even m

theorem Represents.multiple (h : Represents x k f) (coarse : e ≤ f) :
    x = ((k * 2 ^ (f - e).toNat : ℤ) : ℚ) * 2 ^ e := by
  have exponent : ((f - e).toNat : ℤ) = f - e := by omega
  rw [h.value]
  push_cast
  rw [mul_assoc, ← zpow_natCast, exponent, ← zpow_add₀ two_ne_zero, sub_add_cancel]

theorem multiples_apart (v : ℚ) (i j e : ℤ) :
    (|i - j| : ℤ) * (2 : ℚ) ^ e ≤ |v - j * 2 ^ e| + |v - i * 2 ^ e| := by
  have unit : (0 : ℚ) < 2 ^ e := by positivity
  calc (|i - j| : ℤ) * (2 : ℚ) ^ e = |(v - j * 2 ^ e) - (v - i * 2 ^ e)| := by
        rw [Int.cast_abs, ← abs_of_pos unit, ← abs_mul, abs_of_pos unit]
        push_cast
        ring_nf
    _ ≤ |v - j * 2 ^ e| + |v - i * 2 ^ e| := abs_sub _ _

namespace GridRounded

theorem least (h : GridRounded v m e) (j : ℤ) : |v - m * 2 ^ e| ≤ |v - j * 2 ^ e| := by
  by_cases same : (m : ℤ) = j
  · rw [← same, Int.cast_natCast]
  · have step : (1 : ℚ) ≤ (|(m : ℤ) - j| : ℤ) := by
      exact_mod_cast Int.one_le_abs (sub_ne_zero.mpr same)
    have unit : (0 : ℚ) < 2 ^ e := by positivity
    have apart := multiples_apart v m j e
    rw [Int.cast_natCast] at apart
    have near := h.near
    linarith [le_mul_of_one_le_left unit.le step]

theorem tie (h : GridRounded v m e) {j : ℤ} (other : j ≠ m)
    (same : |v - j * 2 ^ e| = |v - m * 2 ^ e|) : Even (m : ℤ) ∧ ¬Even j := by
  have step : 1 ≤ |(m : ℤ) - j| := Int.one_le_abs (sub_ne_zero.mpr other.symm)
  have unit : (0 : ℚ) < 2 ^ e := by positivity
  have apart := multiples_apart v m j e
  rw [Int.cast_natCast, same] at apart
  have near := h.near
  have half : |v - m * 2 ^ e| = 2 ^ e / 2 := by
    have steps : (1 : ℚ) ≤ (|(m : ℤ) - j| : ℤ) := by exact_mod_cast step
    linarith [le_mul_of_one_le_left unit.le steps]
  have neighbour : |(m : ℤ) - j| ≤ 1 := by
    have steps : ((|(m : ℤ) - j| : ℤ) : ℚ) * 2 ^ e ≤ 1 * 2 ^ e := by linarith
    exact_mod_cast le_of_mul_le_mul_right steps unit
  have even := h.even half
  have beside := (abs_eq zero_le_one).mp (neighbour.antisymm step)
  rw [Int.not_even_iff, Int.even_coe_nat]
  rw [Nat.even_iff] at even
  exact ⟨Nat.even_iff.mpr even, by omega⟩

theorem farther (h : GridRounded v m e) (hy : Represents y k f) (finer : f < e) :
    |v - m * 2 ^ e| < |v - y| := by
  have low := hy.low
  have bottom : 2 ^ 52 * 2 ^ e ≤ v := h.fine.resolve_left (by omega)
  have below : y < 2 ^ 52 * 2 ^ e := by
    have bits : (k : ℚ) < 2 ^ 53 := by exact_mod_cast (le_abs_self k).trans_lt hy.bits
    calc y = k * 2 ^ f := hy.value
      _ < 2 ^ 53 * 2 ^ f := mul_lt_mul_of_pos_right bits (by positivity)
      _ ≤ 2 ^ 53 * 2 ^ (e - 1) := by
        gcongr
        · exact one_le_two
        · omega
      _ = 2 ^ 52 * 2 ^ e := by
        rw [zpow_sub_one₀ two_ne_zero]
        ring
  calc |v - m * 2 ^ e| ≤ |v - ((2 ^ 52 : ℤ) : ℚ) * 2 ^ e| := h.least _
    _ = v - 2 ^ 52 * 2 ^ e := by
      push_cast
      exact abs_of_nonneg (sub_nonneg.mpr bottom)
    _ < v - y := sub_lt_sub_left below v
    _ ≤ |v - y| := le_abs_self _

theorem nearest_iff (h : GridRounded v m e) (double : IsDouble (m * 2 ^ e))
    (even : Even m → IsEvenDouble (m * 2 ^ e)) : Nearest v y ↔ y = m * 2 ^ e := by
  constructor
  · intro nearest
    by_contra other
    obtain ⟨k, f, hy⟩ := nearest.double
    have closer := nearest.least _ double
    have coarse : e ≤ f := not_lt.mp fun finer => (h.farther hy finer).not_ge closer
    have multiple := hy.multiple coarse
    have same : |v - y| = |v - m * 2 ^ e| := closer.antisymm (multiple ▸ h.least _)
    obtain ⟨k', f', hy', even_k'⟩ := nearest.even _ double (Ne.symm other) same.symm
    have coarse' : e ≤ f' := not_lt.mp fun finer => (h.farther hy' finer).not_ge closer
    have multiple' := hy'.multiple coarse'
    rw [multiple'] at same
    refine (h.tie (fun eq => other ?_) same).2 (even_k'.mul_right _)
    rw [multiple', eq]
    norm_cast
  · rintro rfl
    refine ⟨double, ?_, ?_⟩
    · rintro y ⟨k, f, hy⟩
      rcases lt_or_ge f e with finer | coarse
      · exact (h.farther hy finer).le
      · rw [hy.multiple coarse]
        exact h.least _
    · rintro y ⟨k, f, hy⟩ other same
      rcases lt_or_ge f e with finer | coarse
      · exact absurd same (h.farther hy finer).ne'
      · rw [hy.multiple coarse] at same other
        refine even (Int.even_coe_nat m |>.mp (h.tie (fun eq => other ?_) same).1)
        rw [eq]
        norm_cast

end GridRounded

/-! The quotient of two whole numbers. -/

theorem cast_twoTo (n : Nat) : (twoTo n : ℚ) = 2 ^ n := Nat.cast_pow 2 n

theorem cast_tenTo (n : Nat) : (tenTo n : ℚ) = 10 ^ n := Nat.cast_pow 10 n

theorem tenTo_pos (n : Nat) : 0 < tenTo n := Nat.pow_pos (by decide)

namespace Binary64

variable {num den : Nat}

theorem roundDiv_near (num : Nat) (hd : 0 < den) : |(num / den : ℚ) - roundDiv num den| ≤ 1 / 2 ∧
    (|(num / den : ℚ) - roundDiv num den| = 1 / 2 → Even (roundDiv num den)) := by
  have positive : (0 : ℚ) < den := by exact_mod_cast hd
  have whole : (num / den : ℚ) = (num / den : ℕ) + (num % den : ℕ) / den := by
    rw [eq_comm, add_div_eq_mul_add_div _ _ positive.ne', ← Nat.cast_mul, ← Nat.cast_add,
      Nat.div_add_mod']
  have part : num % den < den := Nat.mod_lt num hd
  rw [whole, roundDiv]
  generalize num / den = q at *
  generalize num % den = r at *
  have part_lt : (r / den : ℚ) < 1 := (div_lt_one positive).mpr (by exact_mod_cast part)
  have part_nonneg : (0 : ℚ) ≤ r / den := by positivity
  have half : (r / den : ℚ) = 1 / 2 ↔ 2 * r = den := by
    rw [div_eq_div_iff positive.ne' two_ne_zero]
    norm_cast
    omega
  simp only [Bool.or_eq_true, Bool.and_eq_true, decide_eq_true_eq, beq_iff_eq]
  split
  · next up =>
    have high : (1 / 2 : ℚ) ≤ r / den := by
      rw [div_le_div_iff₀ two_pos positive]
      norm_cast
      omega
    have distance : |(q + r / den : ℚ) - (q + 1 : ℕ)| = 1 - r / den := by
      rw [abs_of_nonpos] <;> push_cast <;> linarith
    rw [distance]
    refine ⟨by linarith, fun tie => ?_⟩
    have two : 2 * r = den := half.mp (by linarith)
    rw [Nat.even_iff]
    omega
  · next down =>
    have low : (r / den : ℚ) ≤ 1 / 2 := by
      rw [div_le_div_iff₀ positive two_pos]
      norm_cast
      omega
    have distance : |(q + r / den : ℚ) - q| = r / den := by
      rw [add_sub_cancel_left, abs_of_nonneg part_nonneg]
    rw [distance]
    refine ⟨low, fun tie => ?_⟩
    have two : 2 * r = den := half.mp tie
    rw [Nat.even_iff]
    omega

theorem scale_pos (hd : 0 < den) (num : Nat) (e : Int) : 0 < (scale num den e).2 := by
  unfold scale
  split
  · exact Nat.mul_pos hd (Nat.two_pow_pos _)
  · exact hd

theorem scale_quotient (num den : Nat) (e : Int) :
    ((scale num den e).1 / (scale num den e).2 : ℚ) = num / den / 2 ^ e := by
  unfold scale
  split
  · next h =>
    have power : (2 : ℚ) ^ e = twoTo e.toNat := by
      rw [cast_twoTo, ← zpow_natCast, Int.toNat_of_nonneg h]
    rw [power, Nat.cast_mul, div_div]
  · next h =>
    have power : (2 : ℚ) ^ e = ((twoTo (-e).toNat : ℕ) : ℚ)⁻¹ := by
      rw [cast_twoTo, ← zpow_natCast, Int.toNat_of_nonneg (by omega), zpow_neg, inv_inv]
    rw [power, Nat.cast_mul, div_inv_eq_mul, mul_div_right_comm]

theorem log2_bounds {n : Nat} (hn : n ≠ 0) :
    (2 : ℚ) ^ (n.log2 : ℤ) ≤ n ∧ (n : ℚ) < 2 ^ (n.log2 + 1 : ℤ) := by
  constructor
  · rw [zpow_natCast]
    exact_mod_cast Nat.log2_self_le hn
  · exact_mod_cast Nat.lt_log2_self

theorem log2_quotient (hn : num ≠ 0) (hd : 0 < den) {e : ℤ}
    (he : e = num.log2 - den.log2 - 52) :
    2 ^ 51 * 2 ^ e ≤ (num / den : ℚ) ∧ (num / den : ℚ) < 2 ^ 53 * 2 ^ e := by
  have positive : (0 : ℚ) < den := by exact_mod_cast hd
  obtain ⟨num_low, num_high⟩ := log2_bounds hn
  obtain ⟨den_low, den_high⟩ := log2_bounds hd.ne'
  constructor
  · rw [le_div_iff₀ positive]
    calc 2 ^ 51 * 2 ^ e * (den : ℚ) ≤ 2 ^ 51 * 2 ^ e * 2 ^ (den.log2 + 1 : ℤ) := by gcongr
      _ = 2 ^ (num.log2 : ℤ) := by
        rw [← zpow_natCast 2 51, ← zpow_add₀ two_ne_zero, ← zpow_add₀ two_ne_zero]
        congr 1
        omega
      _ ≤ num := num_low
  · rw [div_lt_iff₀ positive]
    calc (num : ℚ) < 2 ^ (num.log2 + 1 : ℤ) := num_high
      _ = 2 ^ 53 * 2 ^ e * 2 ^ (den.log2 : ℤ) := by
        rw [← zpow_natCast 2 53, ← zpow_add₀ two_ne_zero, ← zpow_add₀ two_ne_zero]
        congr 1
        omega
      _ ≤ 2 ^ 53 * 2 ^ e * den := by gcongr

theorem scale_lt_iff (hd : 0 < den) (num : Nat) (e : Int) :
    (scale num den e).1 < (scale num den e).2 * twoTo 52 ↔ (num / den : ℚ) < 2 ^ 52 * 2 ^ e := by
  have scaled : (0 : ℚ) < (scale num den e).2 := by exact_mod_cast scale_pos hd num e
  rw [← div_lt_iff₀ (by positivity), ← scale_quotient, div_lt_iff₀' scaled, ← Nat.cast_lt (α := ℚ),
    Nat.cast_mul, cast_twoTo]

theorem exponentOf_bounds (hn : num ≠ 0) (hd : 0 < den) :
    -1074 ≤ exponentOf num den ∧
      (exponentOf num den = -1074 ∨ 2 ^ 52 * 2 ^ exponentOf num den ≤ (num / den : ℚ)) ∧
      (num / den : ℚ) < 2 ^ 53 * 2 ^ exponentOf num den := by
  obtain ⟨e, he⟩ : ∃ e : ℤ, e = num.log2 - den.log2 - 52 := ⟨_, rfl⟩
  have cases : exponentOf num den = max (if (scale num den e).1 < (scale num den e).2 * twoTo 52
      then e - 1 else e) (-1074) := he ▸ rfl
  obtain ⟨above, below⟩ := log2_quotient hn hd he
  -- The difference of the logarithms is right, or too large by one.
  have exact : ∃ e' : ℤ, (if (scale num den e).1 < (scale num den e).2 * twoTo 52
      then e - 1 else e) = e' ∧ 2 ^ 52 * 2 ^ e' ≤ (num / den : ℚ) ∧
        (num / den : ℚ) < 2 ^ 53 * 2 ^ e' := by
    have shift : (2 : ℚ) ^ e = 2 * 2 ^ (e - 1) := by
      rw [zpow_sub_one₀ two_ne_zero]
      ring
    split
    · next less =>
      rw [scale_lt_iff hd] at less
      rw [shift] at above less
      exact ⟨e - 1, rfl, by linarith, by linarith⟩
    · next more =>
      exact ⟨e, rfl, not_lt.mp ((scale_lt_iff hd num e).not.mp more), below⟩
  obtain ⟨e', he', bottom, top⟩ := exact
  rw [cases, he']
  rcases le_total (-1074) e' with normal | subnormal
  · rw [max_eq_left normal]
    exact ⟨normal, .inr bottom, top⟩
  · rw [max_eq_right subnormal]
    refine ⟨le_rfl, .inl rfl, top.trans_le ?_⟩
    gcongr
    exact one_le_two

theorem gridRounded (hn : num ≠ 0) (hd : 0 < den) {n d : Nat}
    (scaled : scale num den (exponentOf num den) = (n, d)) :
    GridRounded (num / den) (roundDiv n d) (exponentOf num den) := by
  obtain ⟨low, fine, -⟩ := exponentOf_bounds hn hd
  have positive : 0 < d := by simpa [scaled] using scale_pos hd num (exponentOf num den)
  have quotient := scale_quotient num den (exponentOf num den)
  rw [scaled] at quotient
  obtain ⟨near, even⟩ := roundDiv_near n positive
  rw [quotient] at near even
  generalize exponentOf num den = e at *
  have unit : (0 : ℚ) < 2 ^ e := by positivity
  have distance : |(num / den : ℚ) - roundDiv n d * 2 ^ e| =
      |(num / den / 2 ^ e : ℚ) - roundDiv n d| * 2 ^ e := by
    rw [← abs_of_pos unit, ← abs_mul, abs_of_pos unit, sub_mul, div_mul_cancel₀ _ unit.ne']
  refine ⟨low, fine, ?_, fun tie => even ?_⟩
  · rw [distance]
    linarith [mul_le_mul_of_nonneg_right near unit.le]
  · rw [distance] at tie
    exact mul_right_cancel₀ unit.ne' (by linarith)

/-- The number is rounded to this double: to the one finite double that is nearest, or to an
infinite one if all finite doubles are smaller. -/
def Rounds (v : ℚ) : Binary64 → Prop
  | .finite negative m e => ∀ y, Nearest v y ↔ y = signed negative (m * 2 ^ e)
  | .infinite _ => ∀ y, IsDouble y → |y| < |v|

theorem rounds_finite {x : ℚ} {m : ℕ} (negative : Bool) (value : x = m * 2 ^ e)
    (h : ∀ y, Nearest v y ↔ y = x) : (finite negative m e).Rounds (signed negative v) := by
  subst value
  intro y
  cases negative with
  | false => exact h y
  | true =>
    change Nearest (-v) y ↔ y = -(m * 2 ^ e)
    rw [nearest_neg_iff, h, neg_eq_iff_eq_neg]

theorem rounds_infinite {v : ℚ} (negative : Bool) (h : (2 ^ 53 - 1 / 2) * 2 ^ (971 : ℤ) ≤ v) :
    (infinite negative).Rounds (signed negative v) := by
  rintro y ⟨k, f, hy⟩
  have high := hy.high
  have bits : (|k| : ℤ) ≤ (2 : ℚ) ^ 53 - 1 := by
    have whole : |k| ≤ 2 ^ 53 - 1 := by linarith [hy.bits]
    exact_mod_cast whole
  calc |y| = |k| * 2 ^ f := by
        rw [hy.value, abs_mul, abs_of_pos (by positivity : (0 : ℚ) < 2 ^ f), Int.cast_abs]
    _ ≤ (2 ^ 53 - 1) * 2 ^ (971 : ℤ) := by
        gcongr
        exact one_le_two
    _ < (2 ^ 53 - 1 / 2) * 2 ^ (971 : ℤ) := by
        gcongr
        norm_num
    _ ≤ |signed negative v| := by
        rw [abs_signed]
        exact h.trans (le_abs_self v)

theorem represents_significand (bits : m < 2 ^ 53) (low : -1074 ≤ e) (high : e ≤ 971) :
    Represents (m * 2 ^ e) m e where
  bits := by
    rw [Nat.abs_cast]
    exact_mod_cast bits
  low := low
  high := high
  value := by rw [Int.cast_natCast]

theorem rounds_of_grid (negative : Bool) (grid : GridRounded v m e) (bits : m < 2 ^ 53)
    (high : e ≤ 971) : (finite negative m e).Rounds (signed negative v) := by
  have represents := represents_significand bits grid.low high
  refine rounds_finite negative rfl fun y => ?_
  exact grid.nearest_iff ⟨m, e, represents⟩ fun even => ⟨m, e, represents, even.natCast⟩

theorem rounds_of_carry (negative : Bool) (grid : GridRounded v (2 ^ 53) e) (high : e + 1 ≤ 971) :
    (finite negative (2 ^ 52) (e + 1)).Rounds (signed negative v) := by
  have represents : Represents ((2 ^ 52 : ℕ) * 2 ^ (e + 1)) (2 ^ 52 : ℕ) (e + 1) :=
    represents_significand (by decide) (grid.low.trans (by omega)) high
  have halved : (2 ^ 53 : ℕ) * (2 : ℚ) ^ e = (2 ^ 52 : ℕ) * 2 ^ (e + 1) := by
    rw [zpow_add_one₀ two_ne_zero]
    push_cast
    ring
  refine rounds_finite negative halved fun y => ?_
  refine grid.nearest_iff ⟨_, _, halved ▸ represents⟩ fun _ => ⟨_, _, halved ▸ represents, ?_⟩
  decide

theorem infinite_of_carry (negative : Bool) (grid : GridRounded v (2 ^ 53) e) (high : 971 ≤ e) :
    (infinite negative).Rounds (signed negative v) := by
  refine rounds_infinite negative ?_
  have near := (abs_le.mp grid.near).1
  push_cast at near
  calc (2 ^ 53 - 1 / 2) * (2 : ℚ) ^ (971 : ℤ) ≤ (2 ^ 53 - 1 / 2) * 2 ^ e := by
        gcongr
        exact one_le_two
    _ ≤ v := by linarith

theorem infinite_of_large (negative : Bool) (large : 2 ^ 52 * 2 ^ e ≤ v) (high : 971 < e) :
    (infinite negative).Rounds (signed negative v) := by
  refine rounds_infinite negative ?_
  calc (2 ^ 53 - 1 / 2) * (2 : ℚ) ^ (971 : ℤ) ≤ 2 ^ 53 * 2 ^ (e - 1) := by
        gcongr
        · norm_num
        · exact one_le_two
        · omega
    _ = 2 ^ 52 * 2 ^ e := by
        rw [zpow_sub_one₀ two_ne_zero]
        ring
    _ ≤ v := large

theorem significand_le (grid : GridRounded v m e) (top : v < 2 ^ 53 * 2 ^ e) : m ≤ 2 ^ 53 := by
  have unit : (0 : ℚ) < 2 ^ e := by positivity
  have near := (abs_le.mp grid.near).1
  have bound : (m : ℚ) < 2 ^ 53 + 1 := lt_of_mul_lt_mul_right (by linarith) unit.le
  exact Nat.lt_succ_iff.mp (by exact_mod_cast bound)

theorem ofQuotient_rounds (negative : Bool) (num : Nat) (hd : 0 < den) :
    (ofQuotient negative num den).Rounds (signed negative (num / den)) := by
  unfold ofQuotient
  split
  · next none =>
    have zero : IsDouble (num / den) :=
      ⟨0, 0, by decide, by decide, by decide, by rw [none]; simp⟩
    refine rounds_finite negative ?_ fun y => nearest_iff_of_isDouble zero
    rw [none]
    simp
  · next hn =>
    extract_lets e
    split
    next n d scaled =>
    have grid := gridRounded hn hd scaled
    obtain ⟨-, fine, top⟩ := exponentOf_bounds hn hd
    extract_lets m
    change GridRounded _ m e at grid
    change e = -1074 ∨ 2 ^ 52 * 2 ^ e ≤ (num / den : ℚ) at fine
    change (num / den : ℚ) < 2 ^ 53 * 2 ^ e at top
    clear_value m e
    split
    next m' e' rounded =>
    by_cases carry : m = twoTo 53
    · rw [if_pos carry] at rounded
      cases rounded
      subst carry
      split
      · next high => exact infinite_of_carry negative grid (by omega)
      · next high => exact rounds_of_carry negative grid (by omega)
    · rw [if_neg carry] at rounded
      cases rounded
      split
      · next high => exact infinite_of_large negative (fine.resolve_left (by omega)) high
      · next high =>
        have bits := lt_of_le_of_ne (significand_le grid top) carry
        exact rounds_of_grid negative grid bits (by omega)

/-! Whole numbers. -/

theorem quotient_value (m : Nat) (e : Int) : 0 < (quotient m e).2 ∧
    ((quotient m e).1 / (quotient m e).2 : ℚ) = m * 2 ^ e := by
  unfold quotient
  split
  · next h =>
    refine ⟨Nat.one_pos, ?_⟩
    rw [Nat.cast_mul, cast_twoTo, Nat.cast_one, div_one, ← zpow_natCast, Int.toNat_of_nonneg h]
  · next h =>
    refine ⟨Nat.two_pow_pos _, ?_⟩
    rw [cast_twoTo, ← zpow_natCast, Int.toNat_of_nonneg (by omega), zpow_neg, div_inv_eq_mul]

theorem toInt?_eq_some {negative : Bool} {n : Int} :
    (finite negative m e).toInt? = some n ↔ signed negative (m * 2 ^ e) = n := by
  obtain ⟨positive, value⟩ := quotient_value m e
  have nonzero : ((quotient m e).2 : ℚ) ≠ 0 := by exact_mod_cast positive.ne'
  rw [← value, toInt?]
  generalize quotient m e = p at *
  obtain ⟨num, den⟩ := p
  dsimp only at *
  split
  · next whole =>
    obtain ⟨q, rfl⟩ := Nat.dvd_of_mod_eq_zero whole
    rw [Nat.mul_div_cancel_left q positive, Nat.cast_mul, mul_div_cancel_left₀ _ nonzero,
      Option.some_inj]
    cases negative <;> simp only [signed, if_true, Bool.false_eq_true, if_false] <;> norm_cast
  · next part =>
    refine iff_of_false nofun fun same => part ?_
    have size : (num / den : ℚ) = n.natAbs := by
      rw [Nat.cast_natAbs, Int.cast_abs, ← same, abs_signed, abs_of_nonneg (by positivity)]
    rw [div_eq_iff nonzero] at size
    have multiple : num = n.natAbs * den := by exact_mod_cast size
    rw [multiple, Nat.mul_mod_left]

end Binary64

theorem toDigits_bounds {c : Nat} (hc : c ≠ 0) :
    10 ^ ((Nat.toDigits 10 c).length - 1) ≤ c ∧ c < 10 ^ (Nat.toDigits 10 c).length := by
  have some : 0 < (Nat.toDigits 10 c).length := Nat.length_toDigits_pos
  constructor
  · by_cases one : (Nat.toDigits 10 c).length = 1
    · rw [one]
      exact Nat.one_le_iff_ne_zero.mpr hc
    · refine not_lt.mp fun less => ?_
      have fewer := (Nat.length_toDigits_le_iff (by decide) (by omega)).mpr less
      omega
  · exact (Nat.length_toDigits_le_iff (by decide) some).mp le_rfl

theorem decimal_bounds {c : Nat} (hc : c ≠ 0) (k : Int) :
    (10 : ℚ) ^ (k + (Nat.toDigits 10 c).length - 1) ≤ c * 10 ^ k ∧
      (c * 10 ^ k : ℚ) < 10 ^ (k + (Nat.toDigits 10 c).length) := by
  have some : 0 < (Nat.toDigits 10 c).length := Nat.length_toDigits_pos
  obtain ⟨low, high⟩ := toDigits_bounds hc
  generalize (Nat.toDigits 10 c).length = l at *
  constructor
  · have first : k + (l : ℤ) - 1 = (l - 1 : ℕ) + k := by omega
    rw [first, zpow_add₀ (by norm_num), zpow_natCast]
    gcongr
    exact_mod_cast low
  · rw [add_comm, zpow_add₀ (by norm_num), zpow_natCast]
    gcongr
    exact_mod_cast high

theorem beyond_doubles : (2 ^ 53 - 1 / 2) * (2 : ℚ) ^ (971 : ℤ) ≤ 10 ^ (330 : ℤ) := by
  have exponent : ((53 : ℕ) : ℤ) + 971 = 1024 := rfl
  have whole : (2 : ℕ) ^ 1024 ≤ 10 ^ 330 := by decide +kernel
  calc (2 ^ 53 - 1 / 2) * (2 : ℚ) ^ (971 : ℤ) ≤ 2 ^ 53 * 2 ^ (971 : ℤ) := by
        gcongr
        norm_num
    _ = 2 ^ (1024 : ℤ) := by rw [← zpow_natCast, ← zpow_add₀ two_ne_zero, exponent]
    _ ≤ 10 ^ (330 : ℤ) := by exact_mod_cast whole

theorem below_doubles : (10 : ℚ) ^ (-331 : ℤ) ≤ 2 ^ (-1074 : ℤ) / 2 := by
  have exponent : (-1074 : ℤ) - 1 = -1075 := rfl
  have whole : (2 : ℕ) ^ 1075 ≤ 10 ^ 331 := by decide +kernel
  rw [div_eq_mul_inv, ← zpow_sub_one₀ two_ne_zero, exponent, zpow_neg, zpow_neg]
  gcongr
  exact_mod_cast whole

theorem Literal.toBinary64_rounds (negative : Bool) (c : Nat) (k : Int) :
    ∃ x, (Literal.finite negative c k).toBinary64 = some x ∧
      x.Rounds (signed negative (c * 10 ^ k)) := by
  simp only [toBinary64]
  split
  · next small =>
    have tiny : (c * 10 ^ k : ℚ) ≤ 2 ^ (-1074 : ℤ) / 2 := by
      by_cases hc : c = 0
      · rw [hc, Nat.cast_zero, zero_mul]
        positivity
      · have top : k + (Nat.toDigits 10 c).length ≤ -331 := by
          simp only [hc, decide_false, Bool.false_or, decide_eq_true_eq] at small
          omega
        calc (c * 10 ^ k : ℚ) ≤ 10 ^ (k + (Nat.toDigits 10 c).length) := (decimal_bounds hc k).2.le
          _ ≤ 10 ^ (-331 : ℤ) := zpow_le_zpow_right₀ (by norm_num) top
          _ ≤ 2 ^ (-1074 : ℤ) / 2 := below_doubles
    have size : |(c * 10 ^ k : ℚ) - (0 : ℕ) * 2 ^ (-1074 : ℤ)| ≤ 2 ^ (-1074 : ℤ) / 2 := by
      rwa [Nat.cast_zero, zero_mul, sub_zero, abs_of_nonneg (by positivity)]
    have grid : GridRounded (c * 10 ^ k) 0 (-1074) := ⟨le_rfl, .inl rfl, size, fun _ => by decide⟩
    exact ⟨_, rfl, Binary64.rounds_of_grid negative grid (by decide) (by decide)⟩
  · next notSmall =>
    have hc : c ≠ 0 := by
      rintro rfl
      exact notSmall rfl
    split
    · next large =>
      refine ⟨_, rfl, Binary64.rounds_infinite negative ?_⟩
      calc (2 ^ 53 - 1 / 2) * (2 : ℚ) ^ (971 : ℤ) ≤ 10 ^ (330 : ℤ) := beyond_doubles
        _ ≤ 10 ^ (k + (Nat.toDigits 10 c).length - 1) :=
            zpow_le_zpow_right₀ (by norm_num) (by omega)
        _ ≤ c * 10 ^ k := (decimal_bounds hc k).1
    · next notLarge =>
      split
      · next whole =>
        refine ⟨_, rfl, ?_⟩
        have rounds := Binary64.ofQuotient_rounds negative (c * tenTo k.toNat) Nat.one_pos
        have value : ((c * tenTo k.toNat : ℕ) / (1 : ℕ) : ℚ) = c * 10 ^ k := by
          rw [Nat.cast_mul, cast_tenTo, Nat.cast_one, div_one, ← zpow_natCast,
            Int.toNat_of_nonneg whole]
        rwa [value] at rounds
      · next part =>
        refine ⟨_, rfl, ?_⟩
        have rounds := Binary64.ofQuotient_rounds negative c (tenTo_pos (-k).toNat)
        have value : (c / (tenTo (-k).toNat : ℕ) : ℚ) = c * 10 ^ k := by
          rw [cast_tenTo, ← zpow_natCast, Int.toNat_of_nonneg (by omega), zpow_neg,
            div_inv_eq_mul]
        rwa [value] at rounds

end FieldProcedure.Number
