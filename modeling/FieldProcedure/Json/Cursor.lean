/-! Reading JSON text octet by octet. A cursor knows the place of the octets it has consumed; a
fault is reported at that place, or at the place just after the octet that comes next. The two ways
of reading differ in one point: a stream has already read the octet that was looked at. A loop over
the text is bounded by the text: every turn consumes an octet at least, so the bound lasts. -/
namespace FieldProcedure.Json

structure Place where
  line : Nat := 1
  column : Nat := 0
deriving DecidableEq, Repr, Inhabited

def Place.after (p : Place) (b : UInt8) : Place :=
  if b = 10 then ⟨p.line + 1, 0⟩ else ⟨p.line, p.column + 1⟩

def Place.before (p : Place) (octets : Nat) : Place := ⟨p.line, p.column - octets⟩

inductive Cause
  | endInValue | endInList | endInObject | endInString
  | expectedValue | expectedLiteral | expectedColon | expectedListEnd | expectedObjectEnd
  | invalidNumber | numberOutOfRange
  | invalidEscape | controlCharacter | loneSurrogate | brokenPair | invalidCodePoint
  | keyNotString | trailingComma | trailingCharacters | tooDeep
  | wrongType (found expected : String)
  | wrongValue (found expected : String)
  | wrongLength (length : Nat) (expected : String)
  | missingField (name : String)
  | duplicateField (name : String)
deriving DecidableEq, Repr, Inhabited

structure Fault where
  cause : Cause
  place : Place
deriving DecidableEq, Repr, Inhabited

def Cause.message : Cause → String
  | .endInValue => "EOF while parsing a value"
  | .endInList => "EOF while parsing a list"
  | .endInObject => "EOF while parsing an object"
  | .endInString => "EOF while parsing a string"
  | .expectedValue => "expected value"
  | .expectedLiteral => "expected ident"
  | .expectedColon => "expected `:`"
  | .expectedListEnd => "expected `,` or `]`"
  | .expectedObjectEnd => "expected `,` or `\x7d`"
  | .invalidNumber => "invalid number"
  | .numberOutOfRange => "number out of range"
  | .invalidEscape => "invalid escape"
  | .controlCharacter => "control character (\\u0000-\\u001F) found while parsing a string"
  | .loneSurrogate => "lone leading surrogate in hex escape"
  | .brokenPair => "unexpected end of hex escape"
  | .invalidCodePoint => "invalid unicode code point"
  | .keyNotString => "key must be a string"
  | .trailingComma => "trailing comma"
  | .trailingCharacters => "trailing characters"
  | .tooDeep => "recursion limit exceeded"
  | .wrongType found expected => "invalid type: " ++ found ++ ", expected " ++ expected
  | .wrongValue found expected => "invalid value: " ++ found ++ ", expected " ++ expected
  | .wrongLength length expected =>
    "invalid length " ++ toString length ++ ", expected " ++ expected
  | .missingField name => "missing field `" ++ name ++ "`"
  | .duplicateField name => "duplicate field `" ++ name ++ "`"

def Fault.message (f : Fault) : String :=
  f.cause.message ++ " at line " ++ toString f.place.line ++ " column " ++ toString f.place.column

inductive Origin
  | text | stream
deriving DecidableEq, Repr, Inhabited

structure Cursor where
  rest : List UInt8
  place : Place := {}
  origin : Origin := .text
deriving Repr, Inhabited

def octet (c : Char) : UInt8 := UInt8.ofNat c.toNat

def isDigit (b : UInt8) : Bool := octet '0' ≤ b && b ≤ octet '9'

def isSpace (b : UInt8) : Bool := b = 32 || b = 10 || b = 9 || b = 13

namespace Cursor

variable (c : Cursor)

def peek? : Option UInt8 := c.rest.head?

def advance : Cursor :=
  match c.rest with
  | [] => c
  | b :: rest => { c with rest, place := c.place.after b }

def ahead : Place := c.advance.place

/-- The place that counts as reached once the next octet has been looked at. -/
def reached : Place :=
  match c.origin with
  | .text => c.place
  | .stream => c.ahead

def skipWhile (p : UInt8 → Bool) : List UInt8 → Place → List UInt8 × Place
  | [], place => ([], place)
  | b :: rest, place => if p b then skipWhile p rest (place.after b) else (b :: rest, place)

def dropWhile (p : UInt8 → Bool) : Cursor :=
  let (rest, place) := skipWhile p c.rest c.place
  { c with rest, place }

def skipSpaces : Cursor := c.dropWhile isSpace

end Cursor

abbrev Scanner := StateT Cursor (Except Fault)

namespace Scanner

def peek : Scanner (Option UInt8) := do return (← get).peek?

def advance : Scanner Unit := modify Cursor.advance

def next : Scanner (Option UInt8) := do
  let b ← peek
  advance
  return b

def skipSpaces : Scanner Unit := modify Cursor.skipSpaces

variable {α : Type}

def failHere (cause : Cause) : Scanner α := do throw ⟨cause, (← get).place⟩

def failAhead (cause : Cause) : Scanner α := do throw ⟨cause, (← get).ahead⟩

def failReached (cause : Cause) : Scanner α := do throw ⟨cause, (← get).reached⟩

def digits : Scanner (List UInt8) := do
  let c ← get
  modify fun c => c.dropWhile isDigit
  return c.rest.takeWhile isDigit

def accept (b : UInt8) : Scanner Bool := do
  if (← peek) = some b then
    advance
    return true
  else return false

def exponentMark : Scanner Bool := do
  if ← accept (octet 'e') then return true else accept (octet 'E')

def exponentSign : Scanner Bool := do
  if ← accept (octet '-') then return true
  else
    let _ ← accept (octet '+')
    return false

def expect (b : UInt8) (atEnd other : Cause) : Scanner Unit := do
  match ← peek with
  | none => failAhead atEnd
  | some x => if x = b then advance else failAhead other

def literal : List Char → Scanner Unit
  | [] => pure ()
  | expected :: rest => do
    match ← next with
    | none => failHere .endInValue
    | some b => if b = octet expected then literal rest else failHere .expectedLiteral

def nextInString : Scanner UInt8 := do
  match ← next with
  | none => failHere .endInString
  | some b => return b

def hexValue? (b : UInt8) : Option Nat :=
  if isDigit b then some (b - octet '0').toNat
  else if octet 'a' ≤ b && b ≤ octet 'f' then some ((b - octet 'a').toNat + 10)
  else if octet 'A' ≤ b && b ≤ octet 'F' then some ((b - octet 'A').toNat + 10)
  else none

def hexEscape : Scanner Nat := do
  let a ← nextInString
  let b ← nextInString
  let c ← nextInString
  let d ← nextInString
  match hexValue? a, hexValue? b, hexValue? c, hexValue? d with
  | some a, some b, some c, some d => return ((a * 16 + b) * 16 + c) * 16 + d
  | _, _, _, _ => failHere .invalidEscape

end Scanner
end FieldProcedure.Json
