import FieldProcedure.Text.HiddenTable
import FieldProcedure.Text.CaseTable

/-! Text between double quotes, for messages: quotes and backslashes are escaped, and so is every
character that would not show. -/
namespace FieldProcedure.Text

def hexText (n : Nat) : String := String.ofList (Nat.toDigits 16 n)

def isHidden (c : Char) : Bool := inRanges hiddenRanges c.toNat

def quotedChar (c : Char) : String :=
  if c = Char.ofNat 0 then "\\0"
  else if c = '\t' then "\\t"
  else if c = '\r' then "\\r"
  else if c = '\n' then "\\n"
  else if c = '"' then "\\\""
  else if c = '\\' then "\\\\"
  else if isHidden c then "\\u\x7b" ++ hexText c.toNat ++ "\x7d"
  else c.toString

def quoted (s : String) : String := "\"" ++ String.join (s.toList.map quotedChar) ++ "\""

end FieldProcedure.Text
