import FieldProcedure.Number.Binary64

/-! Decimal literals: an optional sign, digits with an optional fraction, an optional exponent. At
least one digit stands before the exponent, and a point may stand first or last. The words for
infinity and for no number, in any case, are literals too. -/
namespace FieldProcedure.Number

inductive Literal
  | finite (negative : Bool) (coefficient : Nat) (exponent : Int)
  | notFinite
deriving DecidableEq, Repr

def digitValue (c : Char) : Nat := c.toNat - '0'.toNat

def ofDigits (cs : List Char) : Nat := cs.foldl (fun n c => n * 10 + digitValue c) 0

def takeSign : List Char → Bool × List Char
  | '-' :: cs => (true, cs)
  | '+' :: cs => (false, cs)
  | cs => (false, cs)

def readInt? (cs : List Char) : Option Int :=
  let (negative, ds) := takeSign cs
  if ds.isEmpty || !ds.all Char.isDigit then none
  else some (if negative then -(ofDigits ds : Int) else ofDigits ds)

namespace Literal

def readExponent? : List Char → Option Int
  | [] => some 0
  | c :: cs => if c = 'e' || c = 'E' then readInt? cs else none

def read? (cs : List Char) : Option Literal :=
  let (negative, cs) := takeSign cs
  if [['i', 'n', 'f'], ['i', 'n', 'f', 'i', 'n', 'i', 't', 'y'], ['n', 'a', 'n']].contains
      (cs.map Char.toLower) then some .notFinite
  else
    let whole := cs.takeWhile Char.isDigit
    let (fraction, rest) :=
      match cs.dropWhile Char.isDigit with
      | '.' :: r => (r.takeWhile Char.isDigit, r.dropWhile Char.isDigit)
      | r => ([], r)
    if whole.isEmpty && fraction.isEmpty then none
    else (readExponent? rest).map fun e =>
      .finite negative (ofDigits (whole ++ fraction)) (e - fraction.length)

/-- The nearest double. A coefficient of `d` digits puts the value between `10 ^ (exponent + d - 1)`
and `10 ^ (exponent + d)`, so far outside the range of doubles no power of ten is formed. -/
def toBinary64 : Literal → Option Binary64
  | .notFinite => none
  | .finite negative coefficient exponent =>
    let top := exponent + (Nat.toDigits 10 coefficient).length
    if coefficient = 0 || top < -330 then some (.zero negative)
    else if 330 < top then some (.infinite negative)
    else if 0 ≤ exponent then some (.ofQuotient negative (coefficient * tenTo exponent.toNat) 1)
    else some (.ofQuotient negative coefficient (tenTo (-exponent).toNat))

end Literal
end FieldProcedure.Number
