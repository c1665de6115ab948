import FieldProcedure.Json.Cursor
import FieldProcedure.Text.Utf8
import Mathlib.Data.Fin.Basic

/-! JSON texts. A script is a value together with the way in which it is written down: the blanks
around every token, the escapes in every string, the digits of every number. Its octets are any text
that the grammar of JSON allows, as long as strings say texts, that is pair their surrogates. -/
namespace FieldProcedure.Json

structure Gap where
  octets : List UInt8
  blank : ∀ b ∈ octets, isSpace b = true

def Gap.none : Gap := ⟨[], List.forall_mem_nil _⟩

structure Hex where
  value : Fin 16
  capital : Bool := false

def Hex.digit (h : Hex) : UInt8 :=
  if h.value < 10 then octet '0' + UInt8.ofNat h.value
  else octet (if h.capital then 'A' else 'a') + UInt8.ofNat (h.value - 10)

structure Quad where
  first : Hex
  second : Hex
  third : Hex
  fourth : Hex

namespace Quad

def value (q : Quad) : Nat :=
  ((q.first.value * 16 + q.second.value) * 16 + q.third.value) * 16 + q.fourth.value

def octets (q : Quad) : List UInt8 :=
  [octet '\\', octet 'u', q.first.digit, q.second.digit, q.third.digit, q.fourth.digit]

end Quad

def Quad.ofNat (n : Nat) : Quad where
  first := ⟨Fin.ofNat 16 (n / 4096), false⟩
  second := ⟨Fin.ofNat 16 (n / 256), false⟩
  third := ⟨Fin.ofNat 16 (n / 16), false⟩
  fourth := ⟨Fin.ofNat 16 n, false⟩

theorem Quad.value_ofNat {n : Nat} (h : n < 65536) : (Quad.ofNat n).value = n := by
  simp only [Quad.ofNat, Quad.value, Fin.ofNat]
  omega

def shortEscapes : List (Char × Char) :=
  [('"', '"'), ('\\', '\\'), ('/', '/'), ('b', Char.ofNat 8), ('f', Char.ofNat 12), ('n', '\n'),
    ('r', '\r'), ('t', '\t')]

inductive Piece
  | plain (c : Char) (printed : 0x20 ≤ c.toNat) (unmarked : c ≠ '"' ∧ c ≠ '\\')
  | short (letter c : Char) (known : (letter, c) ∈ shortEscapes)
  | unit (q : Quad) (whole : q.value < 0xD800 ∨ 0xDFFF < q.value)
  | pair (high low : Quad) (front : 0xD800 ≤ high.value ∧ high.value ≤ 0xDBFF)
    (back : 0xDC00 ≤ low.value ∧ low.value ≤ 0xDFFF)

namespace Piece

def char : Piece → Char
  | .plain c _ _ => c
  | .short _ c _ => c
  | .unit q _ => Char.ofNat q.value
  | .pair high low _ _ =>
    Char.ofNat (0x10000 + (high.value - 0xD800) * 0x400 + (low.value - 0xDC00))

def octets : Piece → List UInt8
  | .plain c _ _ => String.utf8EncodeChar c
  | .short letter _ _ => [octet '\\', octet letter]
  | .unit q _ => q.octets
  | .pair high low _ _ => high.octets ++ low.octets

theorem small_of_marked {c : Char} (h : ¬(0x20 ≤ c.toNat ∧ c ≠ '"' ∧ c ≠ '\\')) :
    c.toNat < 0x80 := by
  simp only [not_and_or, not_not, Nat.not_le] at h
  rcases h with low | rfl | rfl
  · exact Nat.lt_trans low (by decide)
  · decide
  · decide

def ofChar (c : Char) : Piece :=
  if h : 0x20 ≤ c.toNat ∧ c ≠ '"' ∧ c ≠ '\\' then .plain c h.1 h.2
  else .unit (Quad.ofNat c.toNat) (by
    have small := small_of_marked h
    rw [Quad.value_ofNat] <;> omega)

theorem char_ofChar (c : Char) : (ofChar c).char = c := by
  rw [ofChar]
  split
  · rfl
  · next h =>
    have small := small_of_marked h
    rw [char, Quad.value_ofNat (by omega), Char.ofNat_toNat]

end Piece

structure Literal where
  pieces : List Piece

namespace Literal

def text (l : Literal) : String := String.ofList (l.pieces.map Piece.char)

def ofText (s : String) : Literal := ⟨s.toList.map Piece.ofChar⟩

theorem text_ofText (s : String) : (ofText s).text = s := by
  have same : Piece.char ∘ Piece.ofChar = id := funext Piece.char_ofChar
  rw [text, ofText, List.map_map, same, List.map_id, String.ofList_toList]

def body (l : Literal) : List UInt8 := l.pieces.flatMap Piece.octets ++ [octet '"']

def octets (l : Literal) : List UInt8 := octet '"' :: l.body

end Literal

def digitOctet (d : Fin 10) : UInt8 := octet '0' + UInt8.ofNat d

def digitsValue (ds : List (Fin 10)) : Nat := ds.foldl (fun n d => n * 10 + d.val) (0 : Nat)

def signOctets (sign : Option Bool) : List UInt8 :=
  sign.toList.map fun down => octet (if down then '-' else '+')

def decimalDigits (n : Nat) : List (Fin 10) :=
  if h : n < 10 then [⟨n, h⟩] else decimalDigits (n / 10) ++ [Fin.ofNat 10 n]

theorem digitsValue_decimalDigits (n : Nat) : digitsValue (decimalDigits n) = n := by
  induction n using Nat.strong_induction_on with
  | h n ih =>
    rw [decimalDigits]
    split
    · exact Nat.zero_add n
    · have front := ih (n / 10) (by omega)
      rw [digitsValue] at front ⊢
      rw [List.foldl_append, front, List.foldl_cons, List.foldl_nil, Fin.val_ofNat]
      omega

theorem decimalDigits_leading {n : Nat} (h : 0 < n) :
    ∃ d rest, decimalDigits n = d :: rest ∧ d ≠ 0 := by
  induction n using Nat.strong_induction_on with
  | h n ih =>
    rw [decimalDigits]
    split
    · next small => exact ⟨⟨n, small⟩, [], rfl, fun zero => h.ne' (Fin.val_eq_of_eq zero)⟩
    · obtain ⟨d, rest, front, nonzero⟩ := ih (n / 10) (by omega) (by omega)
      exact ⟨d, rest ++ [Fin.ofNat 10 n], by rw [front, List.cons_append], nonzero⟩

structure Exponent where
  capital : Bool
  sign : Option Bool
  digits : List (Fin 10)
  filled : digits ≠ []

def Exponent.octets (e : Exponent) : List UInt8 :=
  octet (if e.capital then 'E' else 'e') :: (signOctets e.sign ++ e.digits.map digitOctet)

/-- A number as it is written. Its whole digits begin with a zero only if that is all of them. -/
structure Numeral where
  negative : Bool
  whole : List (Fin 10)
  fraction : Option (List (Fin 10))
  exponent : Option Exponent
  leading : whole = [0] ∨ ∃ d rest, whole = d :: rest ∧ d ≠ 0
  filled : ∀ ds ∈ fraction, ds ≠ []

namespace Numeral

def fractionOctets (n : Numeral) : List UInt8 :=
  n.fraction.toList.flatMap fun ds => octet '.' :: ds.map digitOctet

def exponentOctets (n : Numeral) : List UInt8 := n.exponent.toList.flatMap Exponent.octets

def unsigned (n : Numeral) : List UInt8 :=
  n.whole.map digitOctet ++ (n.fractionOctets ++ n.exponentOctets)

def octets (n : Numeral) : List UInt8 :=
  if n.negative then octet '-' :: n.unsigned else n.unsigned

/-- The integer that is written with whole digits only. A negative zero is none. -/
def int? (n : Numeral) : Option Int :=
  if n.fraction.isSome || n.exponent.isSome || (n.negative && n.whole = [0]) then none
  else if n.negative then some (-digitsValue n.whole) else some (digitsValue n.whole)

def ofInt (i : Int) : Numeral where
  negative := i < 0
  whole := decimalDigits i.natAbs
  fraction := none
  exponent := none
  leading := by
    rcases Nat.eq_zero_or_pos i.natAbs with zero | positive
    · exact .inl (by rw [zero, decimalDigits]; rfl)
    · exact .inr (decimalDigits_leading positive)
  filled := nofun

theorem int?_ofInt (i : Int) : (ofInt i).int? = some i := by
  have zero (h : i < 0) : decimalDigits i.natAbs ≠ [0] := by
    intro same
    have value := digitsValue_decimalDigits i.natAbs
    rw [same] at value
    have nothing : i.natAbs = 0 := value.symm
    omega
  by_cases h : i < 0
  · have value : -(i.natAbs : Int) = i := by omega
    simp only [int?, ofInt, h, zero h, digitsValue_decimalDigits, value, decide_true, decide_false,
      Option.isSome_none, Bool.or_self, Bool.and_false, Bool.false_eq_true, if_true, if_false]
  · have value : (i.natAbs : Int) = i := by omega
    simp only [int?, ofInt, h, digitsValue_decimalDigits, value, decide_false, Option.isSome_none,
      Bool.or_self, Bool.false_and, Bool.false_eq_true, if_false]

end Numeral

inductive Token
  | null
  | bool (b : Bool)
  | number (n : Numeral)
  | text (l : Literal)

def word (letters : List Char) : List UInt8 := letters.map octet

def Token.octets : Token → List UInt8
  | .null => word ['n', 'u', 'l', 'l']
  | .bool true => word ['t', 'r', 'u', 'e']
  | .bool false => word ['f', 'a', 'l', 's', 'e']
  | .number n => n.octets
  | .text l => l.octets

mutual
inductive Script
  | token (t : Token)
  | array (gap : Gap) (items : Script.Items)
  | object (gap : Gap) (members : Script.Members)

inductive Script.Items
  | closed
  | item (before : Gap) (value : Script) (after : Gap) (rest : Script.Items)

inductive Script.Members
  | closed
  | member (before : Gap) (key : Literal) (middle later : Gap) (value : Script) (after : Gap)
    (rest : Script.Members)
end

namespace Script

def separator (first : Bool) : List UInt8 := if first then [] else [octet ',']

mutual
def octets : Script → List UInt8
  | .token t => t.octets
  | .array gap items => octet '[' :: (gap.octets ++ items.octets true)
  | .object gap members => octet '\x7b' :: (gap.octets ++ members.octets true)

def Items.octets (first : Bool) : Items → List UInt8
  | .closed => [octet ']']
  | .item before value after rest =>
    separator first ++ before.octets ++ value.octets ++ after.octets ++ rest.octets false

def Members.octets (first : Bool) : Members → List UInt8
  | .closed => [octet '\x7d']
  | .member before key middle later value after rest =>
    separator first ++ before.octets ++ key.octets ++ middle.octets ++ [octet ':'] ++
      later.octets ++ value.octets ++ after.octets ++ rest.octets false
end

def Items.toList : Items → List Script
  | .closed => []
  | .item _ value _ rest => value :: rest.toList

def Members.toList : Members → List (String × Script)
  | .closed => []
  | .member _ key _ _ value _ rest => (key.text, value) :: rest.toList

def ofText (s : String) : Script := .token (.text (.ofText s))

def ofInt (i : Int) : Script := .token (.number (.ofInt i))

def Items.ofList : List Script → Items
  | [] => .closed
  | value :: rest => .item .none value .none (ofList rest)

theorem Items.toList_ofList (items : List Script) : (ofList items).toList = items := by
  induction items with
  | nil => rfl
  | cons value rest ih => rw [ofList, toList, ih]

def Members.ofList : List (String × Script) → Members
  | [] => .closed
  | (key, value) :: rest => .member .none (.ofText key) .none .none value .none (ofList rest)

theorem Members.toList_ofList (members : List (String × Script)) :
    (ofList members).toList = members := by
  induction members with
  | nil => rfl
  | cons m rest ih => rw [ofList, toList, Literal.text_ofText, ih]

end Script
end FieldProcedure.Json
