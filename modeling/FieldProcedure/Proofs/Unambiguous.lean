import FieldProcedure.Json.Value
import FieldProcedure.Proofs.Skipping

/-! The value that a JSON text says. The grammar of JSON is unambiguous: however a text is taken
apart into a value with the blanks, escapes and digits that write it, the value is the same. The
first octet of a value tells its form, tokens end where scanners stop, and inside brackets blanks
can be passed over on both sides. -/
namespace FieldProcedure.Json

variable {front back back' : List UInt8}

def Token.meaning? : Token → Option Scalar
  | .null => some .null
  | .bool b => some (.bool b)
  | .number n => n.int?.map .int
  | .text l => some (.text l.text)

namespace Script

mutual
def json? : Script → Option Json
  | .token t => t.meaning?.map .scalar
  | .array _ items => items.json?.map .array
  | .object _ members => members.json?.map .object
def Items.json? : Items → Option (List Json)
  | .closed => some []
  | .item _ value _ rest => do
    let v ← value.json?
    let others ← rest.json?
    return v :: others
def Members.json? : Members → Option (List (String × Json))
  | .closed => some []
  | .member _ key _ _ value _ rest => do
    let v ← value.json?
    let others ← rest.json?
    return (key.text, v) :: others
end

end Script

/-! ### Tokens -/

theorem Scanner.Takes.unique {α : Type} {m : Scanner α} {a a' : α} (h : Takes m front a back)
    (h' : Takes m front a' back') : a = a' ∧ back = back' := by
  obtain ⟨c, run, rest⟩ := h ⟨front, {}, .text⟩ rfl
  obtain ⟨c', run', rest'⟩ := h' ⟨front, {}, .text⟩ rfl
  obtain ⟨rfl, rfl⟩ := Prod.mk.inj (Except.ok.inj (run.symm.trans run'))
  exact ⟨rfl, rest.symm.trans rest'⟩

theorem Literal.unambiguous {l l' : Literal} (same : l.octets ++ back = l'.octets ++ back') :
    l.text = l'.text ∧ back = back' := by
  have body : l.body ++ back = l'.body ++ back' := (List.cons.inj same).2
  exact (Scanner.string_takes l back).unique (body ▸ Scanner.string_takes l' back')

namespace Numeral

theorem sign_of_octets {n n' : Numeral} (same : n.octets ++ back = n'.octets ++ back') :
    n.negative = n'.negative ∧ n.unsigned ++ back = n'.unsigned ++ back' := by
  obtain ⟨d, _, digits⟩ := Scanner.unsigned_eq_cons n back
  obtain ⟨d', _, digits'⟩ := Scanner.unsigned_eq_cons n' back'
  cases sign : n.negative <;> cases sign' : n'.negative <;>
    simp only [octets, sign, sign', if_true, if_false, Bool.false_eq_true, List.cons_append] at same
  · exact ⟨rfl, same⟩
  · rw [digits] at same
    exact absurd (List.cons.inj same).1 (Scanner.digitOctet_ne d).2
  · rw [digits'] at same
    exact absurd (List.cons.inj same).1.symm (Scanner.digitOctet_ne d').2
  · exact ⟨rfl, (List.cons.inj same).2⟩

def tail (n : Numeral) : List UInt8 := n.fractionOctets ++ n.exponentOctets

theorem int?_eq_some_iff_tail (n : Numeral) {i : Int} : n.int? = some i ↔
    n.tail = [] ∧ ¬(n.negative = true ∧ n.whole = [0]) ∧
      i = if n.negative then -(digitsValue n.whole : Int) else digitsValue n.whole := by
  have bare : n.tail = [] ↔ n.fraction = none ∧ n.exponent = none := by
    rw [tail, fractionOctets, exponentOctets]
    cases n.fraction <;> cases n.exponent <;> simp [Exponent.octets]
  rw [bare, and_assoc, int?_eq_some_iff]

theorem span_unsigned (n : Numeral) (h : Delimited back) :
    (n.unsigned ++ back).takeWhile isDigit = n.whole.map digitOctet ∧
      (n.unsigned ++ back).dropWhile isDigit = n.tail ++ back := by
  rw [unsigned, tail, List.append_assoc, List.append_assoc]
  exact Scanner.span_digits n.whole (Scanner.head_fractionOctets n h)

theorem unambiguous {n n' : Numeral} (same : n.octets ++ back = n'.octets ++ back')
    (h : Delimited back) (h' : Delimited back') : n.int? = n'.int? ∧ back = back' := by
  obtain ⟨negative, same⟩ := sign_of_octets same
  obtain ⟨-, rfl⟩ := (Scanner.skipNumber_takes n h).unique (same ▸ Scanner.skipNumber_takes n' h')
  obtain ⟨digits, tail⟩ := n.span_unsigned h
  obtain ⟨digits', tail'⟩ := n'.span_unsigned h
  have injective : Function.Injective digitOctet := fun d e same => Fin.ext (by
    rw [← Scanner.digitOf_digitOctet, same, Scanner.digitOf_digitOctet])
  have whole : n.whole = n'.whole :=
    List.map_injective_iff.mpr injective (digits.symm.trans (same ▸ digits'))
  have tails : n.tail = n'.tail :=
    List.append_cancel_right (tail.symm.trans (same ▸ tail'))
  refine ⟨Option.ext fun i => ?_, rfl⟩
  rw [int?_eq_some_iff_tail, int?_eq_some_iff_tail, tails, negative, whole]

end Numeral

inductive Form
  | null | bool (b : Bool) | number | text | array | object
deriving DecidableEq

def Form.of (b : UInt8) : Form :=
  if b = octet 'n' then .null
  else if b = octet 't' then .bool true
  else if b = octet 'f' then .bool false
  else if b = octet '"' then .text
  else if b = octet '[' then .array
  else if b = octet '\x7b' then .object
  else .number

def Script.form : Script → Form
  | .token .null => .null
  | .token (.bool b) => .bool b
  | .token (.number _) => .number
  | .token (.text _) => .text
  | .array .. => .array
  | .object .. => .object

theorem Script.form_eq (s : Script) (back : List UInt8) :
    ((s.octets ++ back).head?).map Form.of = some s.form := by
  have digits : ∀ d : Fin 10, Form.of (digitOctet d) = .number := by decide
  cases s with
  | token t =>
    cases t with
    | null => rfl
    | bool b => cases b <;> rfl
    | text l => rfl
    | number n =>
      rw [Script.octets, Token.octets, Numeral.octets]
      split
      · rfl
      · obtain ⟨d, rest, octets⟩ := Scanner.unsigned_eq_cons n back
        rw [octets]
        exact congrArg some (digits d)
  | array => rw [Script.octets]; rfl
  | object => rw [Script.octets]; rfl

theorem Script.form_unique {s s' : Script} (same : s.octets ++ back = s'.octets ++ back') :
    s.form = s'.form :=
  Option.some.inj ((s.form_eq back).symm.trans (same ▸ s'.form_eq back'))

theorem Token.unambiguous {t t' : Token} (same : t.octets ++ back = t'.octets ++ back')
    (h : Delimited back) (h' : Delimited back') : t.meaning? = t'.meaning? ∧ back = back' := by
  have form : (Script.token t).form = (Script.token t').form := Script.form_unique same
  cases t <;> cases t' <;> cases form
  case null => exact ⟨rfl, List.append_cancel_left same⟩
  case bool => exact ⟨rfl, List.append_cancel_left same⟩
  case number n n' =>
    obtain ⟨value, rest⟩ := Numeral.unambiguous same h h'
    exact ⟨congrArg (Option.map Scalar.int) value, rest⟩
  case text l l' =>
    obtain ⟨text, rest⟩ := Literal.unambiguous same
    exact ⟨congrArg (fun s => some (Scalar.text s)) text, rest⟩

/-! ### Values -/

theorem Gap.pass {gap gap' : Gap} (same : gap.octets ++ front = gap'.octets ++ back) :
    front.dropWhile isSpace = back.dropWhile isSpace := by
  rw [← gap.dropWhile_append, same, gap'.dropWhile_append]

namespace Script

theorem dropWhile_octets (s : Script) (back : List UInt8) :
    (s.octets ++ back).dropWhile isSpace = s.octets ++ back := by
  obtain ⟨b, rest, octets, begins⟩ := s.head_append back
  rw [octets, List.dropWhile_cons_of_neg (by rw [isSpace_of_begins begins]; decide)]

theorem dropWhile_separated (first : Bool) {gap gap' : Gap}
    (same : (separator first ++ (gap.octets ++ front)).dropWhile isSpace =
      (separator first ++ (gap'.octets ++ back)).dropWhile isSpace) :
    front.dropWhile isSpace = back.dropWhile isSpace := by
  rw [← gap.dropWhile_append front, ← gap'.dropWhile_append back]
  cases first with
  | true => exact same
  | false => exact congrArg (List.dropWhile isSpace) (List.cons.inj same).2

theorem separated_next (first : Bool) (gap : Gap) {b : UInt8} (begins : endsToken b = false) :
    ∃ x rest, (separator first ++ (gap.octets ++ b :: back)).dropWhile isSpace = x :: rest ∧
      x ≠ octet ']' ∧ x ≠ octet '\x7d' := by
  cases first with
  | false => exact ⟨_, _, rfl, by decide⟩
  | true =>
    rw [separator, if_pos rfl, List.nil_append, gap.dropWhile_append,
      List.dropWhile_cons_of_neg (by rw [isSpace_of_begins begins]; decide)]
    refine ⟨b, back, rfl, ?_, ?_⟩ <;>
    · rintro rfl
      cases begins

theorem Items.next (first : Bool) (before after : Gap) (value : Script) (rest : Items)
    (back : List UInt8) :
    ∃ x others, ((Items.item before value after rest).octets first ++ back).dropWhile isSpace =
      x :: others ∧ x ≠ octet ']' := by
  obtain ⟨b, _, octets, begins⟩ := value.head_append (after.octets ++ (rest.octets false ++ back))
  obtain ⟨x, others, next, opened, -⟩ := separated_next first before begins
  exact ⟨x, others, by rw [octets_item, octets, next], opened⟩

theorem Members.next (first : Bool) (before middle inner after : Gap) (key : Literal)
    (value : Script) (rest : Members) (back : List UInt8) :
    ∃ x others, ((Members.member before key middle inner value after rest).octets first ++
      back).dropWhile isSpace = x :: others ∧ x ≠ octet '\x7d' := by
  obtain ⟨x, others, next, -, opened⟩ := separated_next first before (b := octet '"') (by decide)
  exact ⟨x, others, by rw [octets_member]; exact next, opened⟩

-- The recursion is on the value on the left. Inside brackets every value is delimited, whatever
-- comes after the closing one.
mutual
theorem unambiguous : ∀ (s s' : Script) {back back' : List UInt8}, Delimited back →
    Delimited back' → s.octets ++ back = s'.octets ++ back' →
    s.json? = s'.json? ∧ back = back'
  | .token t, .token t', back, back', h, h', same => by
    obtain ⟨meaning, rest⟩ := Token.unambiguous same h h'
    exact ⟨congrArg (Option.map Json.scalar) meaning, rest⟩
  | .array gap items, .array gap' items', back, back', _, _, same => by
    rw [octets, octets, List.cons_append, List.cons_append, List.append_assoc,
      List.append_assoc] at same
    obtain ⟨values, rest⟩ := items.unambiguous items' true (Gap.pass (List.cons.inj same).2)
    exact ⟨congrArg (Option.map Json.array) values, rest⟩
  | .object gap members, .object gap' members', back, back', _, _, same => by
    rw [octets, octets, List.cons_append, List.cons_append, List.append_assoc,
      List.append_assoc] at same
    obtain ⟨values, rest⟩ := members.unambiguous members' true (Gap.pass (List.cons.inj same).2)
    exact ⟨congrArg (Option.map Json.object) values, rest⟩
  | .token t, .array .., _, _, _, _, same | .token t, .object .., _, _, _, _, same
  | .array .., .token t, _, _, _, _, same | .object .., .token t, _, _, _, _, same => by
    cases t <;> cases form_unique same
  | .array .., .object .., _, _, _, _, same | .object .., .array .., _, _, _, _, same => by
    cases form_unique same
theorem Items.unambiguous : ∀ (items items' : Items) (first : Bool) {back back' : List UInt8},
    (items.octets first ++ back).dropWhile isSpace =
      (items'.octets first ++ back').dropWhile isSpace →
    items.json? = items'.json? ∧ back = back'
  | .closed, .closed, first, back, back', same => ⟨rfl, (List.cons.inj same).2⟩
  | .closed, .item before value after rest, first, back, back', same => by
    obtain ⟨_, _, next, opened⟩ := Items.next first before after value rest back'
    exact absurd (List.cons.inj (same.trans next)).1.symm opened
  | .item before value after rest, .closed, first, back, back', same => by
    obtain ⟨_, _, next, opened⟩ := Items.next first before after value rest back
    exact absurd (List.cons.inj (same.symm.trans next)).1.symm opened
  | .item before value after rest, .item before' value' after' rest', first, back, back', same => by
    rw [Items.octets_item, Items.octets_item] at same
    have here := dropWhile_separated first same
    rw [value.dropWhile_octets, value'.dropWhile_octets] at here
    obtain ⟨this, later⟩ := value.unambiguous value' (after.delimited (rest.delimited _))
      (after'.delimited (rest'.delimited _)) here
    obtain ⟨others, done⟩ := rest.unambiguous rest' false (Gap.pass later)
    exact ⟨by rw [Items.json?, Items.json?, this, others], done⟩
theorem Members.unambiguous : ∀ (members members' : Members) (first : Bool)
    {back back' : List UInt8}, (members.octets first ++ back).dropWhile isSpace =
      (members'.octets first ++ back').dropWhile isSpace →
    members.json? = members'.json? ∧ back = back'
  | .closed, .closed, first, back, back', same => ⟨rfl, (List.cons.inj same).2⟩
  | .closed, .member before key middle inner value after rest, first, back, back', same => by
    obtain ⟨_, _, next, opened⟩ :=
      Members.next first before middle inner after key value rest back'
    exact absurd (List.cons.inj (same.trans next)).1.symm opened
  | .member before key middle inner value after rest, .closed, first, back, back', same => by
    obtain ⟨_, _, next, opened⟩ :=
      Members.next first before middle inner after key value rest back
    exact absurd (List.cons.inj (same.symm.trans next)).1.symm opened
  | .member before key middle inner value after rest,
    .member before' key' middle' inner' value' after' rest', first, back, back', same => by
    rw [Members.octets_member, Members.octets_member] at same
    have here : key.octets ++ _ = key'.octets ++ _ := dropWhile_separated first same
    obtain ⟨text, later⟩ := Literal.unambiguous here
    have later := Gap.pass (List.cons.inj (Gap.pass later)).2
    rw [value.dropWhile_octets, value'.dropWhile_octets] at later
    obtain ⟨this, later⟩ := value.unambiguous value' (after.delimited (rest.delimited _))
      (after'.delimited (rest'.delimited _)) later
    obtain ⟨others, done⟩ := rest.unambiguous rest' false (Gap.pass later)
    exact ⟨by rw [Members.json?, Members.json?, text, this, others], done⟩
end

def Writes (s : Script) (text : String) : Prop :=
  ∃ before after : Gap, Text.Utf8.encode text = before.octets ++ (s.octets ++ after.octets)

theorem Writes.unique {s s' : Script} {text : String} (h : s.Writes text) (h' : s'.Writes text) :
    s.json? = s'.json? := by
  obtain ⟨before, after, written⟩ := h
  obtain ⟨before', after', written'⟩ := h'
  have delimited (g : Gap) : Delimited g.octets := fun b hb => by
    rw [endsToken, g.blank b (List.mem_of_mem_head? hb)]
    rfl
  have same := Gap.pass (written.symm.trans written')
  rw [s.dropWhile_octets, s'.dropWhile_octets] at same
  exact (s.unambiguous s' (delimited after) (delimited after') same).1

end Script
end FieldProcedure.Json
