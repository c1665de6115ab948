/-! Blank characters and trimming. A character is blank iff it has the Unicode property White_Space,
so no-break and ideographic spaces are trimmed, and the zero width space and the byte order mark are
not. -/
namespace FieldProcedure.Text

def isBlank (c : Char) : Bool :=
  let n := c.toNat
  (9 ≤ n && n ≤ 13) || n == 0x20 || n == 0x85 || n == 0xA0 || n == 0x1680 ||
    (0x2000 ≤ n && n ≤ 0x200A) || n == 0x2028 || n == 0x2029 || n == 0x202F || n == 0x205F ||
    n == 0x3000

def dropEndWhile (p : Char → Bool) (cs : List Char) : List Char :=
  (cs.reverse.dropWhile p).reverse

def strip (cs : List Char) : List Char := dropEndWhile isBlank (cs.dropWhile isBlank)

def trim (s : String) : String := String.ofList (strip s.toList)

def isAllBlank (s : String) : Bool := s.toList.all isBlank

def trimmed? (s : String) : Option String :=
  if isAllBlank s then none else some (trim s)

end FieldProcedure.Text
