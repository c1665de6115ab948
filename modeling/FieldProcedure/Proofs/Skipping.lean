import FieldProcedure.Json.Extent
import FieldProcedure.Proofs.Scalars

/-! A value that nobody asks for is passed over up to its end, however it is written and however
deep its brackets go. What is open beside the brackets inside the value is a stack, so the induction
on the value carries what is done once that stack is closed. -/
namespace FieldProcedure.Json

def Gap.append (g h : Gap) : Gap where
  octets := g.octets ++ h.octets
  blank b hb := (List.mem_append.mp hb).elim (g.blank b) (h.blank b)

theorem Gap.append_octets (g h : Gap) (rest : List UInt8) :
    g.octets ++ (h.octets ++ rest) = (g.append h).octets ++ rest :=
  (List.append_assoc _ _ _).symm

theorem Gap.delimited (g : Gap) {after : List UInt8} (h : Delimited after) :
    Delimited (g.octets ++ after) := by
  intro b hb
  cases octets : g.octets with
  | nil =>
    rw [octets] at hb
    exact h b hb
  | cons x rest =>
    rw [octets] at hb
    obtain rfl := Option.some_inj.mp hb
    have blank := g.blank x (octets ▸ List.mem_cons_self)
    rw [endsToken, blank]
    rfl

theorem isSpace_of_begins {b : UInt8} (h : endsToken b = false) : isSpace b = false := by
  simp only [endsToken, Bool.or_eq_false_iff] at h
  exact h.1.1.1

theorem Token.head (t : Token) : ∃ b rest, t.octets = b :: rest ∧
    endsToken b = false ∧ b ≠ octet '[' ∧ b ≠ octet '\x7b' := by
  have digits : ∀ d : Fin 10, endsToken (digitOctet d) = false ∧ digitOctet d ≠ octet '[' ∧
      digitOctet d ≠ octet '\x7b' := by decide
  cases t with
  | null => exact ⟨_, _, rfl, by decide⟩
  | bool b => cases b <;> exact ⟨_, _, rfl, by decide⟩
  | text l => exact ⟨_, _, rfl, by decide⟩
  | number n =>
    rw [Token.octets, Numeral.octets]
    split
    · exact ⟨_, _, rfl, by decide⟩
    · obtain ⟨d, rest, octets⟩ := Scanner.unsigned_eq_cons n []
      exact ⟨_, _, (List.append_nil _).symm.trans octets, digits d⟩

theorem Script.head (s : Script) : ∃ b rest, s.octets = b :: rest ∧ endsToken b = false := by
  cases s with
  | token t =>
    obtain ⟨b, rest, octets, other, -⟩ := t.head
    exact ⟨b, rest, by rw [Script.octets, octets], other⟩
  | array gap items => exact ⟨_, _, by rw [Script.octets], by decide⟩
  | object gap members => exact ⟨_, _, by rw [Script.octets], by decide⟩

theorem Script.head_append (s : Script) (back : List UInt8) :
    ∃ b rest, s.octets ++ back = b :: rest ∧ endsToken b = false := by
  obtain ⟨b, rest, octets, begins⟩ := s.head
  exact ⟨b, rest ++ back, by rw [octets, List.cons_append], begins⟩

theorem Script.Items.delimited (items : Items) (back : List UInt8) :
    Delimited (items.octets false ++ back) := by
  cases items <;>
  · rw [Items.octets]
    rintro b ⟨⟩
    decide

theorem Script.Members.delimited (members : Members) (back : List UInt8) :
    Delimited (members.octets false ++ back) := by
  cases members <;>
  · rw [Members.octets]
    rintro b ⟨⟩
    decide

theorem Script.Items.octets_item (first : Bool) (before after : Gap) (value : Script)
    (rest : Items) (back : List UInt8) : (Items.item before value after rest).octets first ++ back =
      separator first ++ (before.octets ++ (value.octets ++
        (after.octets ++ (rest.octets false ++ back)))) := by
  simp only [Items.octets, List.append_assoc]

theorem Script.Members.octets_member (first : Bool) (before middle inner after : Gap)
    (key : Literal) (value : Script) (rest : Members) (back : List UInt8) :
    (Members.member before key middle inner value after rest).octets first ++ back =
      separator first ++ (before.octets ++ (key.octets ++ (middle.octets ++ octet ':' ::
        (inner.octets ++ (value.octets ++ (after.octets ++ (rest.octets false ++ back))))))) := by
  simp only [Members.octets, List.append_assoc, List.cons_append, List.nil_append]

namespace Scanner

variable {bound rest back final : List UInt8} {outer : List Bracket}

/-! Strings. -/

theorem skipEscape_takes_unit (q : Quad) : Takes skipEscape (q.octets.drop 1 ++ back) () back := by
  refine nextInString_takes.bind ?_
  rw [if_pos rfl]
  exact (hexEscape_takes q back).bind (.pure _ _)

theorem skipEscape_takes_short {letter c : Char} (known : (letter, c) ∈ shortEscapes) :
    Takes skipEscape (octet letter :: back) () back := by
  have listed : ∀ p ∈ shortEscapes, octet p.1 ≠ octet 'u' ∧
      ['"', '\\', '/', 'b', 'f', 'n', 'r', 't'].any (octet p.1 = octet ·) = true := by decide
  obtain ⟨other, found⟩ := listed _ known
  refine nextInString_takes.bind ?_
  rw [if_neg other, found]
  exact .pure _ _

theorem skipString_takes_escape (h : Takes skipEscape rest () back)
    (long : (octet '\\' :: rest).length ≤ bound.length)
    (later : ∀ bound', rest.length ≤ bound'.length → Takes (skipString bound') back () final) :
    Takes (skipString bound) (octet '\\' :: rest) () final := by
  cases bound with
  | nil => cases long
  | cons _ bound =>
    refine peek_takes_some.bind ?_
    dsimp only
    rw [if_neg (by decide)]
    refine advance_takes.bind ?_
    rw [if_neg (by decide), if_pos rfl]
    exact h.bind (later bound (Nat.le_of_succ_le_succ long))

theorem skipString_takes_unit (q : Quad) (long : (q.octets ++ rest).length ≤ bound.length)
    (later : ∀ bound', rest.length ≤ bound'.length → Takes (skipString bound') rest () back) :
    Takes (skipString bound) (q.octets ++ rest) () back := by
  refine skipString_takes_escape (skipEscape_takes_unit q) long fun bound' enough => ?_
  exact later bound' (Nat.le_trans (List.suffix_append _ rest).length_le enough)

theorem skipString_takes_plain {octets : List UInt8} (plain : ∀ b ∈ octets, isPlain b = true)
    (long : (octets ++ rest).length ≤ bound.length)
    (later : ∀ bound', rest.length ≤ bound'.length → Takes (skipString bound') rest () back) :
    Takes (skipString bound) (octets ++ rest) () back := by
  induction octets generalizing bound with
  | nil => exact later bound long
  | cons b octets ih =>
    cases bound with
    | nil => cases long
    | cons _ bound =>
      have here := plain b List.mem_cons_self
      simp only [isPlain, Bool.not_eq_true', Bool.or_eq_false_iff, decide_eq_false_iff_not,
        and_assoc] at here
      refine peek_takes_some.bind ?_
      dsimp only
      rw [if_neg here.2.2]
      refine advance_takes.bind ?_
      rw [if_neg here.1, if_neg here.2.1]
      exact ih (fun b hb => plain b (List.mem_cons_of_mem _ hb)) (Nat.le_of_succ_le_succ long)

theorem skipString_takes_piece (p : Piece) (long : (p.octets ++ rest).length ≤ bound.length)
    (later : ∀ bound', rest.length ≤ bound'.length → Takes (skipString bound') rest () back) :
    Takes (skipString bound) (p.octets ++ rest) () back := by
  cases p with
  | plain c printed unmarked =>
    exact skipString_takes_plain (fun b hb => isPlain_of_mem printed unmarked hb) long later
  | short letter c known =>
    refine skipString_takes_escape (skipEscape_takes_short known) long fun bound' enough => ?_
    exact later bound' (Nat.le_trans (Nat.le_succ _) enough)
  | unit q whole => exact skipString_takes_unit q long later
  | pair high low front tail =>
    rw [Piece.octets, List.append_assoc] at long ⊢
    exact skipString_takes_unit high long fun bound' enough =>
      skipString_takes_unit low enough later

theorem skipString_takes (l : Literal) (long : (l.body ++ back).length ≤ bound.length) :
    Takes (skipString bound) (l.body ++ back) () back := by
  rw [Literal.body, List.append_assoc] at long ⊢
  generalize l.pieces = pieces at long ⊢
  induction pieces generalizing bound with
  | nil =>
    cases bound with
    | nil => cases long
    | cons _ bound =>
      refine peek_takes_some.bind ?_
      dsimp only
      rw [if_neg (by decide)]
      refine advance_takes.bind ?_
      rw [if_pos rfl]
      exact .pure _ _
  | cons p pieces ih =>
    rw [List.flatMap_cons, List.append_assoc] at long ⊢
    exact skipString_takes_piece p long fun _ enough => ih enough

/-! Numbers. -/

theorem skipWhole_takes (n : Numeral) (h : ∀ x ∈ back.head?, isDigit x = false) :
    Takes skipWhole (n.whole.map digitOctet ++ back) () back := by
  rcases n.leading with single | ⟨d, ds, split, nonzero⟩
  · have none : back.head?.any isDigit = false := by
      cases back with
      | nil => rfl
      | cons x back => exact h x rfl
    rw [single, List.map_singleton, List.singleton_append]
    refine next_takes.bind ?_
    dsimp only
    rw [if_pos ((digitOctet_eq_zero_iff 0).mpr rfl)]
    refine peek_takes.bind ?_
    rw [none]
    exact .pure _ _
  · rw [split]
    refine next_takes.bind ?_
    dsimp only
    rw [if_neg (mt (digitOctet_eq_zero_iff d).mp nonzero), if_pos (isDigit_digitOctet d)]
    exact dropDigits_takes ds h

theorem skipExponent_takes (n : Numeral) (h : Delimited back) :
    Takes skipExponent (n.exponentOctets ++ back) () back := by
  rw [Numeral.exponentOctets]
  cases n.exponent with
  | none => exact (exponentMark_takes_nothing h).bind (.pure _ _)
  | some e =>
    simp only [Option.toList_some, List.flatMap_singleton, Exponent.octets, List.cons_append,
      List.append_assoc]
    refine (exponentMark_takes e.capital).bind ?_
    refine (exponentSign_takes e.sign (head_map_digits e.filled)).bind ?_
    obtain ⟨d, ds, split⟩ := List.exists_cons_of_ne_nil e.filled
    rw [split]
    refine next_takes.bind ?_
    dsimp only
    rw [if_pos (isDigit_digitOctet d)]
    exact dropDigits_takes ds fun x hx => h.isDigit hx

theorem skipFraction_takes (n : Numeral) (h : Delimited back) :
    Takes skipFraction (n.fractionOctets ++ (n.exponentOctets ++ back)) ()
      (n.exponentOctets ++ back) := by
  have ahead := head_exponentOctets n h
  rw [Numeral.fractionOctets]
  cases fraction : n.fraction with
  | none => exact (accept_takes_nothing fun next => (ahead _ next).2 rfl).bind (.pure _ _)
  | some ds =>
    have filled : (ds.map digitOctet).isEmpty = false := by
      rw [List.isEmpty_eq_false_iff, ne_eq, List.map_eq_nil_iff]
      exact n.filled ds fraction
    rw [Option.toList_some, List.flatMap_singleton, List.cons_append]
    refine accept_takes.bind ((digits_takes ds fun x hx => (ahead x hx).1).bind ?_)
    rw [filled]
    exact .pure _ _

theorem skipNumber_takes (n : Numeral) (h : Delimited back) :
    Takes skipNumber (n.unsigned ++ back) () back := by
  rw [Numeral.unsigned, List.append_assoc, List.append_assoc]
  exact (skipWhole_takes n (head_fractionOctets n h)).bind
    ((skipFraction_takes n h).bind (skipExponent_takes n h))

theorem skipScalar_takes_number (n : Numeral) (h : Delimited back) :
    ∀ b ∈ (n.octets ++ back).head?, Takes (skipScalar b) (n.octets ++ back) () back := by
  intro b hb
  rw [Numeral.octets] at hb ⊢
  cases sign : n.negative with
  | true =>
    rw [sign, if_pos rfl] at hb
    rw [if_pos rfl]
    obtain rfl := Option.some_inj.mp hb
    exact advance_takes.bind (skipNumber_takes n h)
  | false =>
    rw [sign, if_neg Bool.false_ne_true] at hb
    rw [if_neg Bool.false_ne_true]
    obtain ⟨d, rest, octets⟩ := unsigned_eq_cons n back
    rw [octets] at hb
    obtain rfl := Option.some_inj.mp hb
    rw [skipScalar, if_neg (digitOctet_ne d).1, if_neg (digitOctet_ne d).2,
      if_pos (isDigit_digitOctet d)]
    exact skipNumber_takes n h

theorem skipScalar_takes (t : Token) (h : Delimited back) :
    ∀ b ∈ (t.octets ++ back).head?, Takes (skipScalar b) (t.octets ++ back) () back := by
  intro b hb
  cases t with
  | null =>
    obtain rfl := Option.some_inj.mp hb
    exact advance_takes.bind (literal_takes ['u', 'l', 'l'] back)
  | bool v =>
    cases v <;> obtain rfl := Option.some_inj.mp hb
    · exact advance_takes.bind (literal_takes ['a', 'l', 's', 'e'] back)
    · exact advance_takes.bind (literal_takes ['r', 'u', 'e'] back)
  | text l =>
    obtain rfl := Option.some_inj.mp hb
    rw [skipScalar, if_pos rfl]
    exact advance_takes.bind (Takes.get_bind fun c here =>
      skipString_takes l (Nat.le_of_eq (congrArg List.length here.symm)))
  | number n => exact skipScalar_takes_number n h b hb

/-! Values. -/

def resume (bound : List UInt8) (still : List Bracket) : Scanner Unit :=
  if still.isEmpty then pure () else skipOpen bound still

theorem expect_takes (b : UInt8) (atEnd other : Cause) :
    Takes (expect b atEnd other) (b :: back) () back := by
  refine peek_takes_some.bind ?_
  dsimp only
  rw [if_pos rfl]
  exact advance_takes

theorem skipKey_takes (before middle : Gap) (key : Literal) : Takes (skipKey .object)
    (before.octets ++ (key.octets ++ (middle.octets ++ octet ':' :: back))) () back := by
  refine (skipSpaces_takes before ?_).bind
    ((expect_takes _ _ _).bind (Takes.get_bind fun c here => ?_))
  · rintro x ⟨⟩
    decide
  · refine (skipString_takes key (Nat.le_of_eq (congrArg List.length here.symm))).bind ?_
    refine (skipSpaces_takes middle ?_).bind (expect_takes _ _ _)
    rintro x ⟨⟩
    decide

theorem spaces_peek_continues {α : Type} {k : Option UInt8 → Scanner α} (gap : Gap) {x : UInt8}
    (h : isSpace x = false) :
    Continues (skipSpaces >>= fun _ => peek >>= k) (gap.octets ++ x :: rest) (k (some x))
      (x :: rest) := by
  refine (skipSpaces_takes gap ?_).continues.trans peek_takes_some.continues
  rintro y ⟨⟩
  exact h

variable {x : UInt8} {front : List UInt8}

theorem Bracket.closing_facts (b : Bracket) :
    isSpace b.closing = false ∧ endsToken b.closing = true ∧ b.closing ≠ octet ',' := by
  cases b <;> decide

theorem closeBrackets_continues_close (gap : Gap) (b : Bracket) :
    Continues (closeBrackets (b :: outer)) (gap.octets ++ b.closing :: back) (closeBrackets outer)
      back := by
  obtain ⟨visible, -, other⟩ := b.closing_facts
  refine (spaces_peek_continues gap visible).trans ?_
  dsimp only
  rw [if_neg other, if_pos rfl]
  exact advance_takes.continues

theorem closeBrackets_continues_comma (gap : Gap) (b : Bracket) :
    Continues (closeBrackets (b :: outer)) (gap.octets ++ octet ',' :: back)
      (skipKey b >>= fun _ => pure (b :: outer)) back := by
  refine (spaces_peek_continues gap (by decide)).trans ?_
  dsimp only
  rw [if_pos rfl]
  exact advance_takes.continues

theorem openBracket_continues_close (b : Bracket) (gap : Gap) :
    Continues (openBracket b outer) (x :: (gap.octets ++ b.closing :: back)) (closeBrackets outer)
      back := by
  obtain ⟨visible, -, -⟩ := b.closing_facts
  refine advance_takes.continues.trans ((spaces_peek_continues gap visible).trans ?_)
  dsimp only
  rw [if_pos rfl]
  exact advance_takes.continues

theorem openBracket_continues_first (b : Bracket) (gap : Gap) {first : UInt8}
    (octets : front = first :: rest) (begins : endsToken first = false) :
    Continues (openBracket b outer) (x :: (gap.octets ++ front))
      (skipKey b >>= fun _ => pure (b :: outer)) front := by
  obtain ⟨-, ends, -⟩ := b.closing_facts
  rw [octets]
  refine advance_takes.continues.trans
    ((spaces_peek_continues gap (isSpace_of_begins begins)).trans ?_)
  dsimp only
  rw [if_neg fun same => by rw [same, ends] at begins; cases begins]
  exact .refl _ _

theorem skipOpen_continues {y : UInt8} (gap : Gap) (octets : front = x :: rest)
    (h : isSpace x = false) :
    Continues (skipOpen (y :: bound) outer) (gap.octets ++ front)
      (skipHead x outer >>= resume bound) front := by
  rw [octets]
  exact spaces_peek_continues gap h

theorem skipHead_continues_token (t : Token) (h : Delimited back)
    (hx : x ∈ (t.octets ++ back).head?) :
    Continues (skipHead x outer) (t.octets ++ back) (closeBrackets outer) back := by
  obtain ⟨b, tail, octets, -, noList, noObject⟩ := t.head
  have same : b = x := by
    rw [octets] at hx
    exact Option.some_inj.mp hx
  rw [skipHead, if_neg (same ▸ noList), if_neg (same ▸ noObject)]
  exact (skipScalar_takes t h x hx).continues

theorem list_continues {still : List Bracket} :
    Continues ((skipKey .list >>= fun _ => pure (.list :: still)) >>= resume bound) rest
      (skipOpen bound (.list :: still)) rest :=
  .refl _ _

theorem object_continues {still : List Bracket} (before middle : Gap) (key : Literal) :
    Continues ((skipKey .object >>= fun _ => pure (.object :: still)) >>= resume bound)
      (before.octets ++ (key.octets ++ (middle.octets ++ octet ':' :: back)))
      (skipOpen bound (.object :: still)) back :=
  (skipKey_takes before middle key).continues.bind

mutual
theorem skipOpen_takes (s : Script) {bound back final : List UInt8} {outer : List Bracket}
    (gap : Gap) (after : Delimited back) (long : (gap.octets ++ (s.octets ++ back)).length ≤ bound.length)
    (later : ∀ bound', back.length ≤ bound'.length →
      Takes (closeBrackets outer >>= resume bound') back () final) :
    Takes (skipOpen bound outer) (gap.octets ++ (s.octets ++ back)) () final := by
  obtain ⟨x, tail, head, begins⟩ := s.head
  have first : s.octets ++ back = x :: (tail ++ back) := by rw [head, List.cons_append]
  rw [first] at long
  cases bound with
  | nil => simp at long
  | cons y bound =>
    have enough : (tail ++ back).length ≤ bound.length := by
      simp only [List.length_append, List.length_cons] at long ⊢
      omega
    refine (skipOpen_continues gap first (isSpace_of_begins begins)).takes ?_
    cases s with
    | token t =>
      rw [Script.octets] at first ⊢
      refine ((skipHead_continues_token t after ?_).bind).takes (later bound ?_)
      · rw [first]
        rfl
      · exact Nat.le_trans (List.suffix_append tail back).length_le enough
    | array inner items =>
      rw [Script.octets] at head ⊢
      obtain ⟨rfl, rfl⟩ := List.cons.inj head
      rw [List.append_assoc] at enough
      rw [List.cons_append, List.append_assoc]
      exact list_takes items inner enough later
    | object inner members =>
      rw [Script.octets] at head ⊢
      obtain ⟨rfl, rfl⟩ := List.cons.inj head
      rw [List.append_assoc] at enough
      rw [List.cons_append, List.append_assoc]
      exact object_takes members inner enough later

theorem list_takes (items : Script.Items) {bound back final : List UInt8} {outer : List Bracket}
    (gap : Gap) (long : (gap.octets ++ (items.octets true ++ back)).length ≤ bound.length)
    (later : ∀ bound', back.length ≤ bound'.length →
      Takes (closeBrackets outer >>= resume bound') back () final) :
    Takes (skipHead (octet '[') outer >>= resume bound)
      (octet '[' :: (gap.octets ++ (items.octets true ++ back))) () final := by
  cases items with
  | closed =>
    rw [Script.Items.octets] at long ⊢
    refine (openBracket_continues_close .list gap).bind.takes (later bound ?_)
    simp only [List.length_append] at long
    omega
  | item before value after rest =>
    obtain ⟨x, tail, first, begins⟩ :=
      value.head_append (after.octets ++ (rest.octets false ++ back))
    rw [Script.Items.octets_item, Script.separator, if_pos rfl, List.nil_append, gap.append_octets]
      at long ⊢
    refine (openBracket_continues_first .list _ first begins).bind.takes (list_continues.takes ?_)
    refine skipOpen_takes value .none (after.delimited (rest.delimited back)) ?_
      fun bound' enough => items_takes rest after enough later
    exact Nat.le_trans (List.suffix_append _ _).length_le long

theorem object_takes (members : Script.Members) {bound back final : List UInt8}
    {outer : List Bracket} (gap : Gap)
    (long : (gap.octets ++ (members.octets true ++ back)).length ≤ bound.length)
    (later : ∀ bound', back.length ≤ bound'.length →
      Takes (closeBrackets outer >>= resume bound') back () final) :
    Takes (skipHead (octet '\x7b') outer >>= resume bound)
      (octet '\x7b' :: (gap.octets ++ (members.octets true ++ back))) () final := by
  cases members with
  | closed =>
    rw [Script.Members.octets] at long ⊢
    refine (openBracket_continues_close .object gap).bind.takes (later bound ?_)
    simp only [List.length_append] at long
    omega
  | member before key middle inner value after rest =>
    rw [Script.Members.octets_member, Script.separator, if_pos rfl, List.nil_append,
      gap.append_octets] at long ⊢
    refine (openBracket_continues_first .object _ rfl (by decide)).bind.takes
      ((object_continues .none middle key).takes ?_)
    refine skipOpen_takes value inner (after.delimited (rest.delimited back)) ?_
      fun bound' enough => members_takes rest after enough later
    simp only [List.length_append, List.length_cons] at long ⊢
    omega

theorem items_takes (items : Script.Items) {bound back final : List UInt8} {outer : List Bracket}
    (gap : Gap) (long : (gap.octets ++ (items.octets false ++ back)).length ≤ bound.length)
    (later : ∀ bound', back.length ≤ bound'.length →
      Takes (closeBrackets outer >>= resume bound') back () final) :
    Takes (closeBrackets (.list :: outer) >>= resume bound)
      (gap.octets ++ (items.octets false ++ back)) () final := by
  cases items with
  | closed =>
    rw [Script.Items.octets] at long ⊢
    refine (closeBrackets_continues_close gap .list).bind.takes (later bound ?_)
    simp only [List.length_append] at long
    omega
  | item before value after rest =>
    rw [Script.Items.octets_item] at long ⊢
    refine (closeBrackets_continues_comma gap .list).bind.takes (list_continues.takes ?_)
    refine skipOpen_takes value before (after.delimited (rest.delimited back)) ?_
      fun bound' enough => items_takes rest after enough later
    simp only [List.length_append] at long ⊢
    omega

theorem members_takes (members : Script.Members) {bound back final : List UInt8}
    {outer : List Bracket} (gap : Gap)
    (long : (gap.octets ++ (members.octets false ++ back)).length ≤ bound.length)
    (later : ∀ bound', back.length ≤ bound'.length →
      Takes (closeBrackets outer >>= resume bound') back () final) :
    Takes (closeBrackets (.object :: outer) >>= resume bound)
      (gap.octets ++ (members.octets false ++ back)) () final := by
  cases members with
  | closed =>
    rw [Script.Members.octets] at long ⊢
    refine (closeBrackets_continues_close gap .object).bind.takes (later bound ?_)
    simp only [List.length_append] at long
    omega
  | member before key middle inner value after rest =>
    rw [Script.Members.octets_member] at long ⊢
    refine (closeBrackets_continues_comma gap .object).bind.takes
      ((object_continues before middle key).takes ?_)
    refine skipOpen_takes value inner (after.delimited (rest.delimited back)) ?_
      fun bound' enough => members_takes rest after enough later
    simp only [List.length_append, List.length_cons] at long ⊢
    omega
end

end Scanner

theorem Cursor.skipValue_script (c : Cursor) (s : Script) (gap : Gap) {back : List UInt8}
    (after : Delimited back) (here : c.rest = gap.octets ++ (s.octets ++ back)) :
    ∃ c', c.skipValue = .ok c' ∧ c'.rest = back := by
  have long : (gap.octets ++ (s.octets ++ back)).length ≤ c.rest.length := by rw [here]
  have closed : ∀ bound : List UInt8, back.length ≤ bound.length →
      Scanner.Takes (Scanner.closeBrackets [] >>= Scanner.resume bound) back () back :=
    fun _ _ => (Scanner.Takes.pure [] back).bind (.pure () back)
  obtain ⟨c', run, rest⟩ := Scanner.skipOpen_takes s gap after long closed c here
  exact ⟨c', by rw [skipValue, run]; rfl, rest⟩

end FieldProcedure.Json
