/-! Points in local time, written down to the microsecond. -/
namespace FieldProcedure

/-- A date and a time of day. Nanoseconds from a thousand million on belong to a leap second. -/
structure Timestamp where
  year : Int
  month : Nat
  day : Nat
  hour : Nat
  minute : Nat
  second : Nat
  nanosecond : Nat
deriving DecidableEq, Repr, Inhabited

namespace Timestamp

def padded (width n : Nat) : String :=
  let digits := toString n
  String.ofList (List.replicate (width - digits.length) '0') ++ digits

def yearText (year : Int) : String :=
  if year < 0 then "-" ++ padded 4 year.natAbs
  else if year ≤ 9999 then padded 4 year.toNat
  else "+" ++ toString year

def toText (t : Timestamp) : String :=
  let second := t.second + t.nanosecond / 1000000000
  yearText t.year ++ "-" ++ padded 2 t.month ++ "-" ++ padded 2 t.day ++ "T" ++
    padded 2 t.hour ++ ":" ++ padded 2 t.minute ++ ":" ++ padded 2 second ++ "." ++
    padded 6 (t.nanosecond % 1000000000 / 1000)

end Timestamp
end FieldProcedure
