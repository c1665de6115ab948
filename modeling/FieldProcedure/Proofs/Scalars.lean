import FieldProcedure.Json.Scalar
import FieldProcedure.Proofs.Encoding
import FieldProcedure.Proofs.Scanning

/-! Strings and numbers are read from their texts. A string is read up to its closing quote as the
text that it says. Whatever number is written, a reader that accepts it stops where it ends, and
whole digits that 64 bits hold are read as what they say. -/
namespace FieldProcedure.Json

open Text (Utf8.encode)

def endsToken (b : UInt8) : Bool :=
  isSpace b || b = octet ',' || b = octet ']' || b = octet '\x7d'

def Delimited (after : List UInt8) : Prop := ∀ b ∈ after.head?, endsToken b = true

theorem endsToken_iff {b : UInt8} : endsToken b = true ↔
    b = 32 ∨ b = 10 ∨ b = 9 ∨ b = 13 ∨ b = octet ',' ∨ b = octet ']' ∨ b = octet '\x7d' := by
  simp only [endsToken, isSpace, Bool.or_eq_true, decide_eq_true_eq, or_assoc]

namespace Delimited

variable {after : List UInt8} (h : Delimited after)
include h

theorem isDigit {b : UInt8} (hb : b ∈ after.head?) : Json.isDigit b = false := by
  rcases endsToken_iff.mp (h b hb) with rfl | rfl | rfl | rfl | rfl | rfl | rfl <;> decide

theorem ne {x : UInt8} (hx : endsToken x = false) : x ∉ after.head? := by
  intro next
  rw [h x next] at hx
  cases hx

end Delimited

theorem Literal.encode_text (l : Literal) :
    Utf8.encode l.text = l.pieces.flatMap fun p => String.utf8EncodeChar p.char := by
  rw [Utf8.encode, text, String.toList_ofList, List.flatMap_map]

def isWord (i : Int) : Bool := -(Number.twoTo 63 : Int) ≤ i && i < (Number.twoTo 64 : Int)

/-- What is read for sure: every token but a number that is no whole number of 64 bits. -/
def Token.scalar? : Token → Option Scalar
  | .null => some .null
  | .bool b => some (.bool b)
  | .number n => (n.int?.filter isWord).map .int
  | .text l => some (.text l.text)

theorem Numeral.int?_eq_some_iff (n : Numeral) {i : Int} : n.int? = some i ↔
    n.fraction = none ∧ n.exponent = none ∧ ¬(n.negative = true ∧ n.whole = [0]) ∧
      i = if n.negative then -(digitsValue n.whole : Int) else digitsValue n.whole := by
  rw [int?]
  by_cases other : (n.fraction.isSome || n.exponent.isSome || (n.negative && n.whole = [0])) = true
  · rw [if_pos other]
    simp only [Bool.or_eq_true, Bool.and_eq_true, decide_eq_true_eq, Option.isSome_iff_ne_none]
      at other
    simp only [reduceCtorEq, false_iff]
    rintro ⟨noFraction, noExponent, noZero, -⟩
    rcases other with (fraction | exponent) | zero
    · exact fraction noFraction
    · exact exponent noExponent
    · exact noZero zero
  · rw [if_neg other]
    simp only [Bool.or_eq_true, Bool.and_eq_true, decide_eq_true_eq, Option.isSome_iff_ne_none,
      not_or, ne_eq, not_not, and_assoc] at other
    simp only [other, not_false_eq_true, true_and]
    split <;> simp only [Option.some_inj, eq_comm]

namespace Scanner

variable {α : Type} {bs back rest read bound : List UInt8} {x y : UInt8} {a : α}

/-! Strings. Each octet of a piece takes at least one from the bound. -/

theorem plainEscape?_of_mem {p : Char × Char} (h : p ∈ shortEscapes) : octet p.1 ≠ octet 'u' ∧
    ∃ e, plainEscape? (octet p.1) = some e ∧ String.utf8EncodeChar p.2 = [e] := by
  simp only [shortEscapes, List.mem_cons, List.not_mem_nil, or_false] at h
  rcases h with rfl | rfl | rfl | rfl | rfl | rfl | rfl | rfl <;>
    exact ⟨by decide, _, rfl, by decide⟩

theorem unicodeEscape_takes_unit (q : Quad) (whole : q.value < 0xD800 ∨ 0xDFFF < q.value) :
    Takes unicodeEscape (q.octets.drop 2 ++ back) (String.utf8EncodeChar (Char.ofNat q.value))
      back := by
  refine (hexEscape_takes q back).bind ?_
  have notLow : (0xDC00 ≤ q.value && q.value ≤ 0xDFFF) = false := by
    simp only [Bool.and_eq_false_iff, decide_eq_false_iff_not]
    omega
  have notHigh : (decide (q.value < 0xD800) || decide (0xDBFF < q.value)) = true := by
    simp only [Bool.or_eq_true, decide_eq_true_eq]
    omega
  rw [notLow, notHigh]
  exact .pure _ _

theorem pairMark_takes (mark : Char) : Takes (pairMark mark) (octet mark :: back) () back := by
  refine nextInString_takes.bind ?_
  rw [if_pos rfl]
  exact .pure _ _

theorem unicodeEscape_takes_pair (high low : Quad)
    (front : 0xD800 ≤ high.value ∧ high.value ≤ 0xDBFF)
    (tail : 0xDC00 ≤ low.value ∧ low.value ≤ 0xDFFF) :
    Takes unicodeEscape (high.octets.drop 2 ++ (low.octets ++ back))
      (String.utf8EncodeChar (Piece.pair high low front tail).char) back := by
  refine (hexEscape_takes high _).bind ?_
  have notLow : (0xDC00 ≤ high.value && high.value ≤ 0xDFFF) = false := by
    simp only [Bool.and_eq_false_iff, decide_eq_false_iff_not]
    omega
  have isHigh : (decide (high.value < 0xD800) || decide (0xDBFF < high.value)) = false := by
    simp only [Bool.or_eq_false_iff, decide_eq_false_iff_not]
    omega
  have isLow : (decide (low.value < 0xDC00) || decide (0xDFFF < low.value)) = false := by
    simp only [Bool.or_eq_false_iff, decide_eq_false_iff_not]
    omega
  rw [notLow, isHigh]
  refine (pairMark_takes '\\').bind ((pairMark_takes 'u').bind ((hexEscape_takes low back).bind ?_))
  rw [isLow]
  exact .pure _ _

theorem escape_takes_u (h : Takes unicodeEscape rest bs back) :
    Takes escape (octet 'u' :: rest) bs back :=
  nextInString_takes.bind h

theorem escape_takes_short {letter c : Char} (known : (letter, c) ∈ shortEscapes) :
    Takes escape (octet letter :: back) (String.utf8EncodeChar c) back := by
  obtain ⟨other, e, found, same⟩ := plainEscape?_of_mem known
  refine nextInString_takes.bind ?_
  rw [if_neg other, found, same]
  exact .pure _ _

def isPlain (b : UInt8) : Bool := !(b = octet '"' || b = octet '\\' || b < 32)

theorem isPlain_of_mem {b : UInt8} {c : Char} (printed : 0x20 ≤ c.toNat)
    (unmarked : c ≠ '"' ∧ c ≠ '\\') (h : b ∈ String.utf8EncodeChar c) : isPlain b = true := by
  have marks : c.toNat ≠ 34 ∧ c.toNat ≠ 92 := by
    refine ⟨fun same => unmarked.1 ?_, fun same => unmarked.2 ?_⟩ <;>
      rw [← Char.ofNat_toNat c, same]
  have values : (octet '"').toNat = 34 ∧ (octet '\\').toNat = 92 := by decide
  simp only [isPlain, Bool.not_eq_true', Bool.or_eq_false_iff, decide_eq_false_iff_not,
    ← UInt8.toNat_inj, UInt8.lt_iff_toNat_lt, values, UInt8.reduceToNat]
  rcases Text.Utf8.mem_encodeChar h with ⟨_, same⟩ | high <;> omega

theorem stringBody_takes_plain {octets : List UInt8} (plain : ∀ b ∈ octets, isPlain b = true)
    (long : (octets ++ rest).length ≤ bound.length)
    (later : ∀ bound', rest.length ≤ bound'.length →
      Takes (stringBody bound' (octets.reverse ++ read)) rest bs back) :
    Takes (stringBody bound read) (octets ++ rest) bs back := by
  induction octets generalizing bound read with
  | nil => exact later bound long
  | cons b octets ih =>
    cases bound with
    | nil => cases long
    | cons _ bound =>
      have here := plain b List.mem_cons_self
      simp only [isPlain, Bool.not_eq_true', Bool.or_eq_false_iff, decide_eq_false_iff_not,
        and_assoc] at here
      refine nextInString_takes.bind ?_
      rw [if_neg here.1, if_neg here.2.1, if_neg here.2.2]
      refine ih (fun b hb => plain b (List.mem_cons_of_mem _ hb)) (Nat.le_of_succ_le_succ long) ?_
      simpa using later

theorem stringBody_takes_escape
    (h : Takes escape rest bs back) (long : (octet '\\' :: rest).length ≤ bound.length)
    {answer : List UInt8} {final : List UInt8}
    (later : ∀ bound', rest.length ≤ bound'.length →
      Takes (stringBody bound' (bs.reverse ++ read)) back answer final) :
    Takes (stringBody bound read) (octet '\\' :: rest) answer final := by
  cases bound with
  | nil => cases long
  | cons _ bound =>
    refine nextInString_takes.bind ?_
    rw [if_neg (by decide), if_pos rfl]
    exact h.bind (later bound (Nat.le_of_succ_le_succ long))

theorem stringBody_takes_piece (p : Piece) (long : (p.octets ++ rest).length ≤ bound.length)
    (later : ∀ bound', rest.length ≤ bound'.length →
      Takes (stringBody bound' ((String.utf8EncodeChar p.char).reverse ++ read)) rest bs back) :
    Takes (stringBody bound read) (p.octets ++ rest) bs back := by
  cases p with
  | plain c printed unmarked =>
    exact stringBody_takes_plain (fun b hb => isPlain_of_mem printed unmarked hb) long later
  | short letter c known =>
    refine stringBody_takes_escape (escape_takes_short known) long fun bound' enough => ?_
    exact later bound' (Nat.le_trans (Nat.le_succ _) enough)
  | unit q whole =>
    refine stringBody_takes_escape (escape_takes_u (unicodeEscape_takes_unit q whole)) long
      fun bound' enough => later bound' (Nat.le_trans ?_ enough)
    simp only [List.length_cons, List.length_append]
    omega
  | pair high low front tail =>
    have octets : (Piece.pair high low front tail).octets ++ rest =
        octet '\\' :: octet 'u' :: (high.octets.drop 2 ++ (low.octets ++ rest)) := by
      rw [Piece.octets, List.append_assoc]
      rfl
    rw [octets] at long ⊢
    refine stringBody_takes_escape (escape_takes_u (unicodeEscape_takes_pair high low front tail))
      long fun bound' enough => later bound' (Nat.le_trans ?_ enough)
    simp only [List.length_cons, List.length_append]
    omega

theorem stringBody_takes (pieces : List Piece)
    (long : (pieces.flatMap Piece.octets ++ octet '"' :: back).length ≤ bound.length) :
    Takes (stringBody bound read) (pieces.flatMap Piece.octets ++ octet '"' :: back)
      (read.reverse ++ pieces.flatMap fun p => String.utf8EncodeChar p.char) back := by
  induction pieces generalizing bound read with
  | nil =>
    cases bound with
    | nil => cases long
    | cons _ bound =>
      refine nextInString_takes.bind ?_
      rw [if_pos rfl, List.flatMap_nil, List.append_nil]
      exact .pure _ _
  | cons p pieces ih =>
    rw [List.flatMap_cons, List.append_assoc] at long ⊢
    refine stringBody_takes_piece p long fun bound' enough => ?_
    have rest :
        Takes (stringBody bound' ((String.utf8EncodeChar p.char).reverse ++ read)) _ _ back :=
      ih enough
    rwa [List.reverse_append, List.reverse_reverse, List.append_assoc,
      ← List.flatMap_cons (f := fun p : Piece => String.utf8EncodeChar p.char)] at rest

theorem string_takes (l : Literal) (back : List UInt8) :
    Takes string (l.body ++ back) l.text back := by
  rw [Literal.body, List.append_assoc, List.singleton_append]
  refine Takes.get_bind fun c here => ?_
  refine (stringBody_takes l.pieces (Nat.le_of_eq (congrArg List.length here.symm))).bind ?_
  rw [List.reverse_nil, List.nil_append, ← l.encode_text, Text.Utf8.decode_encode]
  exact .pure _ _

/-! Numbers. -/

variable {negative : Bool} {s : Significand}

theorem double_stops : Stops (double negative s) back back := by
  rw [double]
  split
  · exact (Takes.pure _ back).stops
  · exact failReached_stops _

theorem plain_stops : Stops (plain negative s) back back := by
  rw [plain]
  split
  · exact double_stops
  · split
    · exact (Takes.pure _ back).stops
    · split
      · exact double_stops
      · exact (Takes.pure _ back).stops

theorem exponentDigits_takes (ds : List (Fin 10)) (h : ∀ x ∈ back.head?, isDigit x = false)
    (e : Nat) (long : ds.length ≤ bound.length) :
    (∃ n, Takes (exponentDigits bound e) (ds.map digitOctet ++ back) (some n) back) ∨
      ∃ left : List (Fin 10),
        Takes (exponentDigits bound e) (ds.map digitOctet ++ back) none
          (left.map digitOctet ++ back) := by
  induction ds generalizing bound e with
  | nil =>
    refine .inl ⟨e, ?_⟩
    cases bound with
    | nil => exact .pure _ _
    | cons _ bound =>
      cases back with
      | nil => exact peek_takes.bind (.pure _ _)
      | cons x back =>
        refine peek_takes_some.bind ?_
        dsimp only
        rw [if_neg (by rw [h x rfl]; decide)]
        exact .pure _ _
  | cons d ds ih =>
    cases bound with
    | nil => cases long
    | cons first bound =>
      have step {answer : Option Nat} {final : List UInt8}
          (later : Takes (if e * 10 + digitOf (digitOctet d) < Number.twoTo 31 then
            exponentDigits bound (e * 10 + digitOf (digitOctet d)) else pure none)
            (ds.map digitOctet ++ back) answer final) :
          Takes (exponentDigits (first :: bound) e) ((d :: ds).map digitOctet ++ back) answer
            final := by
        refine peek_takes_some.bind ?_
        dsimp only
        rw [if_pos (isDigit_digitOctet d)]
        exact advance_takes.bind later
      by_cases small : e * 10 + digitOf (digitOctet d) < Number.twoTo 31
      · rcases ih _ (Nat.le_of_succ_le_succ long) with ⟨n, taken⟩ | ⟨left, taken⟩
        · exact .inl ⟨n, step (by rwa [if_pos small])⟩
        · exact .inr ⟨left, step (by rwa [if_pos small])⟩
      · exact .inr ⟨ds, step (by rw [if_neg small]; exact .pure _ _)⟩

theorem head_map_digits {ds : List (Fin 10)} (filled : ds ≠ []) :
    ∀ x ∈ (ds.map digitOctet ++ back).head?, isDigit x = true := by
  obtain ⟨d, ds, rfl⟩ := List.exists_cons_of_ne_nil filled
  rintro x ⟨⟩
  exact isDigit_digitOctet d

theorem exponent_stops (sign : Option Bool) {ds : List (Fin 10)} (filled : ds ≠ [])
    (h : ∀ x ∈ back.head?, isDigit x = false) :
    Stops (exponent negative s) (signOctets sign ++ (ds.map digitOctet ++ back)) back := by
  refine (exponentSign_takes sign (head_map_digits filled)).stops_bind ?_
  obtain ⟨d, ds, rfl⟩ := List.exists_cons_of_ne_nil filled
  refine next_takes.stops_bind ?_
  dsimp only
  rw [if_neg (by rw [isDigit_digitOctet]; decide)]
  refine Stops.get_bind fun c here => ?_
  have here : c.rest = ds.map digitOctet ++ back := here
  have long : ds.length ≤ c.rest.length := by
    rw [here, List.length_append, List.length_map]
    exact Nat.le_add_right _ _
  rcases exponentDigits_takes ds h _ long with ⟨n, taken⟩ | ⟨left, taken⟩
  · exact taken.stops_bind double_stops
  · refine taken.stops_bind ?_
    dsimp only
    split
    · exact failHere_stops _
    · exact (digits_takes left h).stops_bind (Takes.pure _ _).stops

theorem exponentMark_takes (capital : Bool) :
    Takes exponentMark (octet (if capital then 'E' else 'e') :: back) true back := by
  cases capital
  · exact accept_takes.bind (.pure _ _)
  · exact (accept_takes_nothing (by simp [octet])).bind accept_takes

theorem exponentMark_takes_nothing (h : Delimited back) : Takes exponentMark back false back :=
  (accept_takes_nothing (h.ne (by decide))).bind (accept_takes_nothing (h.ne (by decide)))

variable {n : Numeral}

theorem mark_then_stops {plain : Scanner Scalar} (n : Numeral) (h : Delimited back)
    (stops : Stops plain back back) :
    Stops (exponentMark >>= fun marked => if marked then exponent negative s else plain)
      (n.exponentOctets ++ back) back := by
  rw [Numeral.exponentOctets]
  cases n.exponent with
  | none => exact (exponentMark_takes_nothing h).stops_bind stops
  | some e =>
    simp only [Option.toList_some, List.flatMap_singleton, Exponent.octets, List.cons_append,
      List.append_assoc]
    exact (exponentMark_takes e.capital).stops_bind
      (exponent_stops e.sign e.filled fun x hx => h.isDigit hx)

theorem head_exponentOctets (n : Numeral) (h : Delimited back) :
    ∀ x ∈ (n.exponentOctets ++ back).head?, isDigit x = false ∧ x ≠ octet '.' := by
  rw [Numeral.exponentOctets]
  cases n.exponent with
  | none => exact fun x hx => ⟨h.isDigit hx, fun same => h.ne (by decide) (same ▸ hx)⟩
  | some e =>
    rintro x ⟨⟩
    cases e.capital <;> decide

theorem numberTail_stops (n : Numeral) (whole : List UInt8) (h : Delimited back) :
    Stops (numberTail negative whole) (n.fractionOctets ++ (n.exponentOctets ++ back)) back := by
  have ahead := head_exponentOctets n h
  rw [Numeral.fractionOctets]
  cases fraction : n.fraction with
  | none =>
    refine (accept_takes_nothing fun next => (ahead _ next).2 rfl).stops_bind ?_
    exact mark_then_stops n h plain_stops
  | some ds =>
    have filled : (ds.map digitOctet).isEmpty = false := by
      rw [List.isEmpty_eq_false_iff, ne_eq, List.map_eq_nil_iff]
      exact n.filled ds fraction
    rw [Option.toList_some, List.flatMap_singleton, List.cons_append]
    refine accept_takes.stops_bind ?_
    refine (digits_takes ds fun x hx => (ahead x hx).1).stops_bind ?_
    rw [filled]
    exact mark_then_stops n h double_stops

theorem digitOctet_eq_zero_iff : ∀ d : Fin 10, digitOctet d = octet '0' ↔ d = 0 := by decide

theorem number_continues (n : Numeral) (h : ∀ x ∈ back.head?, isDigit x = false) :
    Continues (number negative) (n.whole.map digitOctet ++ back)
      (numberTail negative (n.whole.map digitOctet)) back := by
  rcases n.leading with single | ⟨d, ds, split, nonzero⟩
  · have none : back.head?.any isDigit = false := by
      cases back with
      | nil => rfl
      | cons x back => exact h x rfl
    rw [single, List.map_singleton, List.singleton_append]
    refine next_takes.continues.trans ?_
    dsimp only
    rw [if_pos ((digitOctet_eq_zero_iff 0).mpr rfl)]
    refine peek_takes.continues.trans ?_
    rw [none]
    exact .refl _ _
  · rw [split]
    refine next_takes.continues.trans ?_
    dsimp only
    rw [if_neg (mt (digitOctet_eq_zero_iff d).mp nonzero), if_pos (isDigit_digitOctet d)]
    exact (digits_takes ds h).continues

theorem head_fractionOctets (n : Numeral) (h : Delimited back) :
    ∀ x ∈ (n.fractionOctets ++ (n.exponentOctets ++ back)).head?, isDigit x = false := by
  rw [Numeral.fractionOctets]
  cases n.fraction with
  | none => exact fun x hx => (head_exponentOctets n h x hx).1
  | some ds =>
    rintro x ⟨⟩
    decide

theorem number_stops (n : Numeral) (h : Delimited back) :
    Stops (number negative) (n.unsigned ++ back) back := by
  rw [Numeral.unsigned, List.append_assoc, List.append_assoc]
  exact (number_continues n (head_fractionOctets n h)).stops (numberTail_stops n _ h)

theorem le_foldl_digits (ds : List (Fin 10)) (value : Nat) :
    value ≤ ds.foldl (fun n d => n * 10 + d.val) value := by
  induction ds generalizing value with
  | nil => exact Nat.le_refl _
  | cons d ds ih =>
    have step := ih (value * 10 + d.val)
    simp only [List.foldl_cons]
    omega

theorem digitOf_digitOctet : ∀ d : Fin 10, digitOf (digitOctet d) = d.val := by decide

theorem whole_digits (ds : List (Fin 10)) (value : Nat)
    (small : ds.foldl (fun n d => n * 10 + d.val) value < Number.twoTo 64) :
    Significand.whole ⟨value, 0⟩ (ds.map digitOctet) =
      ⟨ds.foldl (fun n d => n * 10 + d.val) value, 0⟩ := by
  induction ds generalizing value with
  | nil => rfl
  | cons d ds ih =>
    rw [List.foldl_cons] at small ⊢
    have fits : Significand.fits ⟨value, 0⟩ (digitOctet d) = true := by
      rw [Significand.fits, digitOf_digitOctet, decide_eq_true_eq]
      exact Nat.lt_of_le_of_lt (le_foldl_digits ds _) small
    rw [List.map_cons, Significand.whole, if_pos fits, digitOf_digitOctet]
    exact ih _ small

theorem digitsValue_pos {d : Fin 10} (ds : List (Fin 10)) (nonzero : d ≠ 0) :
    0 < digitsValue (d :: ds) := by
  have positive : 0 < d.val := Nat.pos_of_ne_zero fun zero => nonzero (Fin.ext zero)
  have grows := le_foldl_digits ds (0 * 10 + d.val)
  rw [digitsValue, List.foldl_cons]
  omega

theorem plain_takes {i : Int} (h : n.int? = some i) (word : isWord i = true) :
    Takes (plain n.negative (Significand.whole {} (n.whole.map digitOctet))) back (.int i)
      back := by
  have words : Number.twoTo 63 = 9223372036854775808 ∧ Number.twoTo 64 = 18446744073709551616 :=
    ⟨rfl, rfl⟩
  simp only [isWord, Bool.and_eq_true, decide_eq_true_eq, words] at word
  obtain ⟨-, -, whole, value⟩ := n.int?_eq_some_iff.mp h
  have small : digitsValue n.whole < Number.twoTo 64 := by
    rw [words.2]
    split at value <;> omega
  have kept : Significand.whole {} (n.whole.map digitOctet) = ⟨digitsValue n.whole, 0⟩ :=
    whole_digits n.whole 0 small
  rw [kept, plain, if_neg (not_not_intro rfl)]
  cases negative : n.negative with
  | false =>
    rw [negative, if_neg Bool.false_ne_true] at value
    rw [value]
    exact .pure _ _
  | true =>
    have nonzero : digitsValue n.whole ≠ 0 := by
      rcases n.leading with single | ⟨d, ds, split, other⟩
      · exact absurd ⟨negative, single⟩ whole
      · rw [split]
        exact (digitsValue_pos ds other).ne'
    rw [negative, if_pos rfl] at value
    have held :
        (digitsValue n.whole = 0 || Number.twoTo 63 < digitsValue n.whole : Bool) = false := by
      simp only [Bool.or_eq_false_iff, decide_eq_false_iff_not, words]
      omega
    rw [if_neg (by simp), held, value]
    exact .pure _ _

theorem number_takes {i : Int} (h : n.int? = some i) (word : isWord i = true)
    (after : Delimited back) :
    Takes (number n.negative) (n.unsigned ++ back) (.int i) back := by
  obtain ⟨noFraction, noExponent, -, -⟩ := n.int?_eq_some_iff.mp h
  have bare : n.unsigned = n.whole.map digitOctet := by
    rw [Numeral.unsigned, Numeral.fractionOctets, Numeral.exponentOctets, noFraction, noExponent]
    exact List.append_nil _
  rw [bare]
  refine (number_continues n fun x hx => after.isDigit hx).takes ?_
  refine (accept_takes_nothing (after.ne (by decide))).bind ?_
  exact (exponentMark_takes_nothing after).bind (plain_takes h word)

/-! Scalars. -/

theorem unsigned_eq_cons (n : Numeral) (back : List UInt8) :
    ∃ d rest, n.unsigned ++ back = digitOctet d :: rest := by
  rcases n.leading with single | ⟨d, ds, split, -⟩
  · exact ⟨0, _, by rw [Numeral.unsigned, single]; rfl⟩
  · exact ⟨d, _, by rw [Numeral.unsigned, split]; rfl⟩

theorem digitOctet_ne : ∀ d : Fin 10, digitOctet d ≠ octet '"' ∧ digitOctet d ≠ octet '-' := by
  decide

theorem scalar_continues (n : Numeral) (back : List UInt8) :
    Continues scalar (n.octets ++ back) (number n.negative) (n.unsigned ++ back) := by
  rw [Numeral.octets]
  cases n.negative with
  | true =>
    rw [if_pos rfl]
    refine peek_takes_some.continues.trans ?_
    dsimp only
    rw [if_neg (by decide), if_pos rfl]
    exact advance_takes.continues
  | false =>
    rw [if_neg Bool.false_ne_true]
    obtain ⟨d, rest, octets⟩ := unsigned_eq_cons n back
    rw [octets]
    refine peek_takes_some.continues.trans ?_
    dsimp only
    rw [if_neg (digitOctet_ne d).1, if_neg (digitOctet_ne d).2, if_pos (isDigit_digitOctet d)]
    exact .refl _ _

theorem scalar_takes_text (l : Literal) : Takes scalar (l.octets ++ back) (.text l.text) back := by
  refine peek_takes_some.bind ?_
  dsimp only
  rw [if_pos rfl]
  exact advance_takes.bind ((string_takes l back).bind (.pure _ _))

theorem scalar_takes_null : Takes scalar (Token.null.octets ++ back) .null back :=
  peek_takes_some.bind (advance_takes.bind
    ((literal_takes ['u', 'l', 'l'] back).bind (.pure _ _)))

theorem scalar_takes_bool (b : Bool) :
    Takes scalar ((Token.bool b).octets ++ back) (.bool b) back := by
  cases b
  · exact peek_takes_some.bind (advance_takes.bind
      ((literal_takes ['a', 'l', 's', 'e'] back).bind (.pure _ _)))
  · exact peek_takes_some.bind (advance_takes.bind
      ((literal_takes ['r', 'u', 'e'] back).bind (.pure _ _)))

theorem scalar_takes {t : Token} {s : Scalar} (h : t.scalar? = some s) (after : Delimited back) :
    Takes scalar (t.octets ++ back) s back := by
  cases t with
  | null =>
    obtain rfl := Option.some_inj.mp h
    exact scalar_takes_null
  | bool b =>
    obtain rfl := Option.some_inj.mp h
    exact scalar_takes_bool b
  | text l =>
    obtain rfl := Option.some_inj.mp h
    exact scalar_takes_text l
  | number n =>
    obtain ⟨i, known, rfl⟩ := Option.map_eq_some_iff.mp h
    obtain ⟨value, word⟩ := Option.filter_eq_some_iff.mp known
    exact (scalar_continues n back).takes (number_takes value word after)

theorem scalar_stops (t : Token) (after : Delimited back) :
    Stops scalar (t.octets ++ back) back := by
  cases t with
  | null => exact scalar_takes_null.stops
  | bool b => exact (scalar_takes_bool b).stops
  | text l => exact (scalar_takes_text l).stops
  | number n => exact (scalar_continues n back).stops (number_stops n after)

end Scanner
end FieldProcedure.Json
