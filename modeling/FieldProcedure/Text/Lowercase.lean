import FieldProcedure.Text.CaseTable

/-! Lower case over all of Unicode. One letter maps to two characters (a dotted capital I keeps its
dot as a combining mark), and a capital sigma that ends a word takes its final form. -/
namespace FieldProcedure.Text

def isCaseIgnorable (c : Char) : Bool := inRanges caseIgnorable c.toNat

def isCased (c : Char) : Bool := inRanges casedLetters c.toNat

def lowerChar (c : Char) : List Char :=
  let n := c.toNat
  if n < 0x80 then [c.toLower]
  else if n = 0x130 then ['i', Char.ofNat 0x307]
  else if n = 0x3A3 then [Char.ofNat 0x3C3]
  else match caseRuns.find? (·.covers n) with
    | some r => [Char.ofNat (n + r.shift).toNat]
    | none => [c]

def casedAhead (cs : List Char) : Bool :=
  match cs.dropWhile isCaseIgnorable with
  | [] => false
  | c :: _ => isCased c

/-- The lower-case forms in order; `inWord` says that a cased letter precedes. -/
def lowerFrom (inWord : Bool) : List Char → List Char
  | [] => []
  | c :: cs =>
    let here :=
      if c.toNat = 0x3A3 && inWord && !casedAhead cs then [Char.ofNat 0x3C2] else lowerChar c
    here ++ lowerFrom (if isCaseIgnorable c then inWord else isCased c) cs

def lower (s : String) : String := String.ofList (lowerFrom false s.toList)

end FieldProcedure.Text
