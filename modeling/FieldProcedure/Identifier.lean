import FieldProcedure.Failure
import FieldProcedure.Number.Power
import Std.Data.TreeSet

/-! Identifiers. A supply is an endless sequence of texts, which may repeat itself; a pool draws
from it and keeps what is taken, so that it hands out no identifier twice and none that was
reserved. -/
namespace FieldProcedure

abbrev Supply := Nat → String

namespace Supply

def padded (n : Nat) : String :=
  let digits := toString n
  String.ofList (List.replicate (4 - digits.length) '0') ++ digits

def sequential (stem : String) : Supply := fun n =>
  stem ++ "-" ++ padded ((n + 1) % Number.twoTo 64)

end Supply

structure Pool where
  supply : Supply
  drawn : Nat := 0
  taken : Std.TreeSet String := ∅

/-- A computation that draws identifiers. What it has drawn stays drawn when it fails. -/
abbrev Drawing := ExceptT CompileError (StateM Pool)

namespace Pool

def reserve (p : Pool) (ids : List String) : Pool :=
  { p with taken := ids.foldl (·.insert ·) p.taken }

def seek (p : Pool) (last : String) : Nat → Except CompileError String × Pool
  | 0 => (.error (.idsExhausted last), p)
  | attempts + 1 =>
    let id := p.supply p.drawn
    if id ∈ p.taken then seek { p with drawn := p.drawn + 1 } id attempts
    else (.ok id, { p with drawn := p.drawn + 1, taken := p.taken.insert id })
termination_by structural attempts => attempts

/-- A free identifier. One more attempt than identifiers are taken finds one whenever the supply
does not repeat itself. -/
def fresh : Drawing String := fun p => p.seek "" (p.taken.size + 1)

end Pool
end FieldProcedure
