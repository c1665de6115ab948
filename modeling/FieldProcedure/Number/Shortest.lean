import FieldProcedure.Number.Binary64

/-! The shortest decimal that reads back as a given double, and of several of that length the
nearest. Digits are sought on decimal grids of one digit, two digits and so on: where a grid has a
point among the reals that round to the double, one of the double's two neighbours on it is such a
point. -/
namespace FieldProcedure.Number

structure Numeral where
  coefficient : Nat
  exponent : Int
deriving DecidableEq, Repr

namespace Shortest

/-- The reals that round to `m * 2 ^ e`, as two numerators over one denominator. The gap below a
power of two is half the gap above it. -/
structure Interval where
  low : Nat
  middle : Nat
  high : Nat
  den : Nat
  closed : Bool

def Interval.ofSignificand (m : Nat) (e : Int) : Interval :=
  let (n, d) := Binary64.quotient 1 (e - 2)
  let below := if m = twoTo 52 && -1074 < e then 1 else 2
  ⟨(4 * m - below) * n, 4 * m * n, (4 * m + 2) * n, d, m % 2 == 0⟩

def Interval.holds (i : Interval) (c : Nat) (k : Int) : Bool :=
  let x := if 0 ≤ k then c * tenTo k.toNat * i.den else c * i.den
  let scale := if 0 ≤ k then 1 else tenTo (-k).toNat
  if i.closed then i.low * scale ≤ x && x ≤ i.high * scale
  else i.low * scale < x && x < i.high * scale

/-- The lower neighbour of the middle on the grid of multiples of `10 ^ k`, and twice the distance
to it as a quotient by the grid's width. -/
def Interval.floor (i : Interval) (k : Int) : Nat × Nat × Nat :=
  let (n, d) :=
    if 0 ≤ k then (i.middle, i.den * tenTo k.toNat) else (i.middle * tenTo (-k).toNat, i.den)
  (n / d, 2 * (n % d), d)

def Interval.point? (i : Interval) (k : Int) : Option Numeral :=
  let (c, twice, width) := i.floor k
  let lower := i.holds c k
  let upper := i.holds (c + 1) k
  if lower && upper then
    if twice < width || (twice == width && c % 2 == 0) then some ⟨c, k⟩ else some ⟨c + 1, k⟩
  else if lower then some ⟨c, k⟩
  else if upper then some ⟨c + 1, k⟩
  else none

def digitCount (n : Nat) : Nat := (Nat.toDigits 10 n).length

def magnitude (num den : Nat) : Int :=
  if den ≤ num then digitCount (num / den) else 1 - digitCount ((den - 1) / num)

/-- Tries the grids of one digit, two digits and so on, downwards from multiples of `10 ^ k`. -/
def search (i : Interval) : Nat → Int → Numeral
  | 0, k => ⟨(i.floor k).1, k⟩
  | fuel + 1, k => (i.point? k).getD (search i fuel (k - 1))

def strip : Nat → Numeral → Numeral
  | 0, x => x
  | fuel + 1, x =>
    if x.coefficient % 10 = 0 && x.coefficient ≠ 0 then
      strip fuel ⟨x.coefficient / 10, x.exponent + 1⟩
    else x

/-- The shortest numeral for `m * 2 ^ e`, where `m` is positive. Seventeen digits always suffice. -/
def ofSignificand (m : Nat) (e : Int) : Numeral :=
  let i := Interval.ofSignificand m e
  strip 20 (search i 17 (magnitude i.middle i.den - 1))

end Shortest

/-- How a double is written: positionally while its first digit counts from 10^-5 up to 10^15, with
`.0` after a whole number, and otherwise with an exponent that carries its sign. -/
def Binary64.toText : Binary64 → String
  | .infinite negative => if negative then "-inf" else "inf"
  | .finite negative m e =>
    let sign := if negative then "-" else ""
    if m = 0 then sign ++ "0.0"
    else
      let x := Shortest.ofSignificand m e
      let digits := toString x.coefficient
      let count := digits.length
      let first : Int := x.exponent + count - 1
      let zeros (n : Nat) : String := String.ofList (List.replicate n '0')
      let take (n : Nat) : String := String.ofList (digits.toList.take n)
      let drop (n : Nat) : String := String.ofList (digits.toList.drop n)
      if first < -5 || 15 < first then
        let mark := if first < 0 then "e-" else "e+"
        let tail := if count = 1 then "" else "." ++ drop 1
        sign ++ take 1 ++ tail ++ mark ++ toString first.natAbs
      else if first < 0 then sign ++ "0." ++ zeros ((-first).toNat - 1) ++ digits
      else
        let whole := first.toNat + 1
        if count ≤ whole then sign ++ digits ++ zeros (whole - count) ++ ".0"
        else sign ++ take whole ++ "." ++ drop whole

end FieldProcedure.Number
