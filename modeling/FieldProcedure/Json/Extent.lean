import FieldProcedure.Json.Cursor

/-! Where a value ends, for values that nobody asks for. Their brackets, quotes, literals and
numbers must be well formed, but strings may hold unpaired surrogates, numbers may have any size,
and there is no limit to their depth. -/
namespace FieldProcedure.Json

namespace Scanner

def skipEscape : Scanner Unit := do
  let b ← nextInString
  if b = octet 'u' then
    let _ ← hexEscape
  else if ['"', '\\', '/', 'b', 'f', 'n', 'r', 't'].any (b = octet ·) then pure ()
  else failHere .invalidEscape

def skipString : List UInt8 → Scanner Unit
  | [] => failHere .endInString
  | _ :: bound => do
    match ← peek with
    | none => failHere .endInString
    | some b =>
      if b < 32 then failReached .controlCharacter
      else
        advance
        if b = octet '"' then pure ()
        else if b = octet '\\' then
          skipEscape
          skipString bound
        else skipString bound

def skipWhole : Scanner Unit := do
  match ← next with
  | none => failHere .invalidNumber
  | some b =>
    if b = octet '0' then
      if (← peek).any isDigit then failAhead .invalidNumber else pure ()
    else if isDigit b then modify fun c => c.dropWhile isDigit
    else failHere .invalidNumber

def skipFraction : Scanner Unit := do
  if ← accept (octet '.') then
    if (← digits).isEmpty then failAhead .invalidNumber else pure ()
  else pure ()

def skipExponent : Scanner Unit := do
  if ← exponentMark then
    let _ ← exponentSign
    match ← next with
    | some b => if isDigit b then modify fun c => c.dropWhile isDigit else failHere .invalidNumber
    | none => failHere .invalidNumber
  else pure ()

def skipNumber : Scanner Unit := do
  skipWhole
  skipFraction
  skipExponent

def skipScalar (b : UInt8) : Scanner Unit := do
  if b = octet '"' then
    advance
    skipString (← get).rest
  else if b = octet '-' then
    advance
    skipNumber
  else if isDigit b then skipNumber
  else if b = octet 'n' then
    advance
    literal ['u', 'l', 'l']
  else if b = octet 't' then
    advance
    literal ['r', 'u', 'e']
  else if b = octet 'f' then
    advance
    literal ['a', 'l', 's', 'e']
  else failAhead .expectedValue

inductive Bracket
  | list | object
deriving DecidableEq, Repr

def Bracket.closing : Bracket → UInt8
  | .list => octet ']'
  | .object => octet '\x7d'

def skipKey : Bracket → Scanner Unit
  | .list => pure ()
  | .object => do
    skipSpaces
    expect (octet '"') .endInObject .keyNotString
    skipString (← get).rest
    skipSpaces
    expect (octet ':') .endInObject .expectedColon

def Bracket.endCause : Bracket → Cause
  | .list => .endInList
  | .object => .endInObject

def Bracket.missingCause : Bracket → Cause
  | .list => .expectedListEnd
  | .object => .expectedObjectEnd

/-- After a value: closes brackets until a comma promises another value. Answers with the brackets
that are still open, and none if the outermost value is complete. -/
def closeBrackets : List Bracket → Scanner (List Bracket)
  | [] => return []
  | bracket :: outer => do
    skipSpaces
    match ← peek with
    | none => failAhead bracket.endCause
    | some b =>
      if b = octet ',' then
        advance
        skipKey bracket
        return bracket :: outer
      else if b = bracket.closing then
        advance
        closeBrackets outer
      else failAhead bracket.missingCause

def openBracket (b : Bracket) (outer : List Bracket) : Scanner (List Bracket) := do
  advance
  skipSpaces
  match ← peek with
  | none => failAhead b.endCause
  | some x =>
    if x = b.closing then
      advance
      closeBrackets outer
    else
      skipKey b
      return b :: outer

def skipHead (b : UInt8) (outer : List Bracket) : Scanner (List Bracket) :=
  if b = octet '[' then openBracket .list outer
  else if b = octet '\x7b' then openBracket .object outer
  else do
    skipScalar b
    closeBrackets outer

def skipOpen : List UInt8 → List Bracket → Scanner Unit
  | [], _ => failAhead .endInValue
  | _ :: bound, outer => do
    skipSpaces
    match ← peek with
    | none => failAhead .endInValue
    | some b =>
      let still ← skipHead b outer
      if still.isEmpty then pure () else skipOpen bound still

end Scanner

def Cursor.skipValue (c : Cursor) : Except Fault Cursor :=
  ((Scanner.skipOpen c.rest []).run c).map (·.2)

end FieldProcedure.Json
