import FieldProcedure.Number.Power

/-! Double-precision numbers, computed exactly. A finite double is a significand times a power of
two; every operation forms its exact quotient and rounds it once, to the nearest double and to the
even significand where two are equally near. -/
namespace FieldProcedure.Number

/-- A double that is a number: a finite one has a significand below 2^53 and an exponent from -1074
to 971, and the significand is below 2^52 only at the least exponent. -/
inductive Binary64
  | finite (negative : Bool) (significand : Nat) (exponent : Int)
  | infinite (negative : Bool)
deriving DecidableEq, Repr, Inhabited

namespace Binary64

def zero (negative : Bool) : Binary64 := .finite negative 0 (-1074)

def roundDiv (num den : Nat) : Nat :=
  let q := num / den
  let r := num % den
  if den < 2 * r || (2 * r == den && q % 2 == 1) then q + 1 else q

/-- A numerator and a denominator of `num / den / 2 ^ e`. -/
def scale (num den : Nat) (e : Int) : Nat × Nat :=
  if 0 ≤ e then (num, den * twoTo e.toNat) else (num * twoTo (-e).toNat, den)

/-- The exponent at which `num / den` has a significand of 53 bits, or the least exponent. -/
def exponentOf (num den : Nat) : Int :=
  let e : Int := (num.log2 : Int) - den.log2 - 52
  let (n, d) := scale num den e
  max (if n < d * twoTo 52 then e - 1 else e) (-1074)

def ofQuotient (negative : Bool) (num den : Nat) : Binary64 :=
  if num = 0 then zero negative
  else
    let e := exponentOf num den
    let (n, d) := scale num den e
    let m := roundDiv n d
    let (m, e) := if m = twoTo 53 then (twoTo 52, e + 1) else (m, e)
    if 971 < e then .infinite negative else .finite negative m e

def quotient (m : Nat) (e : Int) : Nat × Nat :=
  if 0 ≤ e then (m * twoTo e.toNat, 1) else (m, twoTo (-e).toNat)

/-- The product with a positive power of ten that is itself rounded to a double first. -/
def timesTenTo (k : Nat) : Binary64 → Binary64
  | .infinite s => .infinite s
  | .finite s m e =>
    match ofQuotient false (tenTo k) 1 with
    | .infinite _ => .infinite s
    | .finite _ m' e' =>
      let (n, d) := quotient m e
      let (n', d') := quotient m' e'
      ofQuotient s (n * n') (d * d')

def overTenTo (k : Nat) : Binary64 → Binary64
  | .infinite s => .infinite s
  | .finite s m e =>
    match ofQuotient false (tenTo k) 1 with
    | .infinite _ => zero s
    | .finite _ m' e' =>
      let (n, d) := quotient m e
      let (n', d') := quotient m' e'
      ofQuotient s (n * d') (d * n')

def isZero : Binary64 → Bool
  | .finite _ m _ => m == 0
  | .infinite _ => false

def toInt? : Binary64 → Option Int
  | .infinite _ => none
  | .finite negative m e =>
    let (n, d) := quotient m e
    if n % d = 0 then some (if negative then -((n / d : Nat) : Int) else ((n / d : Nat) : Int))
    else none

end Binary64
end FieldProcedure.Number
