/-! Powers of two and of ten, and the whole numbers that a machine word holds. -/
namespace FieldProcedure.Number

def twoTo (n : Nat) : Nat := Nat.pow 2 n

def tenTo (n : Nat) : Nat := Nat.pow 10 n

def isSigned64 (n : Int) : Bool := -(twoTo 63 : Int) ≤ n && n < (twoTo 63 : Int)

end FieldProcedure.Number
