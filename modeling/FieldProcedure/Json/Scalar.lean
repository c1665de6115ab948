import FieldProcedure.Json.Cursor
import FieldProcedure.Json.Value
import FieldProcedure.Text.Utf8

/-! Strings and numbers. An escaped surrogate must be paired. A whole number of 64 bits stays a
whole number; any other becomes a double, from at most as many of its digits as 64 bits hold. -/
namespace FieldProcedure.Json.Scanner

open Number (Binary64)

def pairMark (mark : Char) : Scanner Unit := do
  let b ← nextInString
  if b = octet mark then pure () else failHere .brokenPair

def unicodeEscape : Scanner (List UInt8) := do
  let n ← hexEscape
  if 0xDC00 ≤ n && n ≤ 0xDFFF then failHere .loneSurrogate
  else if n < 0xD800 || 0xDBFF < n then return String.utf8EncodeChar (Char.ofNat n)
  else
    pairMark '\\'
    pairMark 'u'
    let m ← hexEscape
    if m < 0xDC00 || 0xDFFF < m then failHere .loneSurrogate
    else return String.utf8EncodeChar (Char.ofNat (0x10000 + (n - 0xD800) * 0x400 + (m - 0xDC00)))

def plainEscape? (b : UInt8) : Option UInt8 :=
  if b = octet '"' || b = octet '\\' || b = octet '/' then some b
  else if b = octet 'b' then some 8
  else if b = octet 'f' then some 12
  else if b = octet 'n' then some 10
  else if b = octet 'r' then some 13
  else if b = octet 't' then some 9
  else none

def escape : Scanner (List UInt8) := do
  let b ← nextInString
  if b = octet 'u' then unicodeEscape
  else match plainEscape? b with
    | some e => return [e]
    | none => failHere .invalidEscape

def stringBody : List UInt8 → List UInt8 → Scanner (List UInt8)
  | [], _ => failHere .endInString
  | _ :: bound, read => do
    let b ← nextInString
    if b = octet '"' then return read.reverse
    else if b = octet '\\' then do
      let bs ← escape
      stringBody bound (bs.reverse ++ read)
    else if b < 32 then failHere .controlCharacter
    else stringBody bound (b :: read)

/-- A string, whose opening quote is consumed. An ill-formed sequence of octets is reported at its
first one. Its place is counted back from the closing quote, where an escape counts as the octets
that it stands for. -/
def string : Scanner String := do
  let bs ← stringBody (← get).rest []
  match Text.Utf8.decode bs with
  | .ok s => return s
  | .error valid => throw ⟨.invalidCodePoint, (← get).place.before (bs.length - valid)⟩

/-- The digits of a number as far as 64 bits hold them, with the power of ten that makes up for the
digits left out. Whole digits that are left out count; digits of the fraction count once taken. -/
structure Significand where
  value : Nat := 0
  exponent : Int := 0

def digitOf (b : UInt8) : Nat := (b - octet '0').toNat

namespace Significand

def fits (s : Significand) (b : UInt8) : Bool := s.value * 10 + digitOf b < Number.twoTo 64

def whole (s : Significand) : List UInt8 → Significand
  | [] => s
  | b :: rest =>
    if s.fits b then whole ⟨s.value * 10 + digitOf b, s.exponent⟩ rest
    else ⟨s.value, s.exponent + (rest.length + 1)⟩

def fraction (s : Significand) : List UInt8 → Significand
  | [] => s
  | b :: rest =>
    if s.fits b then fraction ⟨s.value * 10 + digitOf b, s.exponent - 1⟩ rest else s

end Significand

/-- The double times a power of ten, or nothing if that is out of range. Powers that no double holds
are divided off in steps. -/
def shift : Nat → Binary64 → Int → Option Binary64
  | 0, x, _ => some x
  | steps + 1, x, exponent =>
    if 0 ≤ exponent && exponent ≤ 308 then
      match x.timesTenTo exponent.toNat with
      | .infinite _ => none
      | y => some y
    else if exponent < 0 && -308 ≤ exponent then some (x.overTenTo exponent.natAbs)
    else if x.isZero then some x
    else if 0 ≤ exponent then none
    else shift steps (x.overTenTo 308) (exponent + 308)

/-- The number that a significand stands for. It is rounded first by itself and then once more with
its power of ten. -/
def double (negative : Bool) (s : Significand) : Scanner Scalar :=
  match shift 8 (.ofQuotient negative s.value 1) s.exponent with
  | some x => return .float x
  | none => failReached .numberOutOfRange

def plain (negative : Bool) (s : Significand) : Scanner Scalar :=
  if s.exponent ≠ 0 then double negative s
  else if !negative then return .int s.value
  else if s.value = 0 || Number.twoTo 63 < s.value then double negative s
  else return .int (-s.value)

/-- The digits of an exponent added to those read, or nothing at the first digit with which it no
longer fits 31 bits. That digit is consumed, and none after it. -/
def exponentDigits : List UInt8 → Nat → Scanner (Option Nat)
  | [], e => return some e
  | _ :: bound, e => do
    match ← peek with
    | none => return some e
    | some b =>
      if isDigit b then
        advance
        let e := e * 10 + digitOf b
        if e < Number.twoTo 31 then exponentDigits bound e else return none
      else return some e

def exponent (negative : Bool) (s : Significand) : Scanner Scalar := do
  let down ← exponentSign
  match ← next with
  | none => failHere .endInValue
  | some b =>
    if !isDigit b then failHere .invalidNumber
    else match ← exponentDigits (← get).rest (digitOf b) with
      | some e => double negative ⟨s.value, if down then s.exponent - e else s.exponent + e⟩
      | none =>
        if s.value ≠ 0 && !down then failHere .numberOutOfRange
        else
          let _ ← digits
          return .float (.zero negative)

def numberTail (negative : Bool) (whole : List UInt8) : Scanner Scalar := do
  let s := Significand.whole {} whole
  if ← accept (octet '.') then
    let ds ← digits
    if ds.isEmpty then
      failAhead (if (← peek).isNone then .endInValue else .invalidNumber)
    else
      let s := s.fraction ds
      if ← exponentMark then exponent negative s else double negative s
  else if ← exponentMark then exponent negative s
  else plain negative s

def number (negative : Bool) : Scanner Scalar := do
  match ← next with
  | none => failHere .endInValue
  | some b =>
    if b = octet '0' then
      if (← peek).any isDigit then failAhead .invalidNumber else numberTail negative [b]
    else if isDigit b then
      let more ← digits
      numberTail negative (b :: more)
    else failHere .invalidNumber

def scalar : Scanner Scalar := do
  match ← peek with
  | none => failAhead .endInValue
  | some b =>
    if b = octet '"' then
      advance
      return .text (← string)
    else if b = octet '-' then
      advance
      number true
    else if isDigit b then number false
    else if b = octet 'n' then
      advance
      literal ['u', 'l', 'l']
      return .null
    else if b = octet 't' then
      advance
      literal ['r', 'u', 'e']
      return .bool true
    else if b = octet 'f' then
      advance
      literal ['a', 'l', 's', 'e']
      return .bool false
    else failAhead .expectedValue

end FieldProcedure.Json.Scanner
