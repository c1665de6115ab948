import FieldProcedure.Json.Node
import FieldProcedure.Proofs.Skipping

/-! The trees that are read from texts. The reader of trees always stops where a value ends, or not
at all. It reads an object to its end whatever its members hold, since it passes over those that it
cannot read, and it reads a list to its end if it can read its items. -/
namespace FieldProcedure.Json

open Node (Reading)

variable {room : Nat} {inner : Cursor → Reading Node} {c : Cursor} {back : List UInt8}

/-- The reader makes of this text, whatever follows it, a tree with the property, and stops at its
end. There may be so many more brackets inside one another. -/
def Script.Yields (room : Nat) (s : Script) (P : Node → Prop) : Prop :=
  ∀ (c : Cursor) (gap : Gap) (back : List UInt8), Delimited back →
    c.rest = gap.octets ++ (s.octets ++ back) →
      ∃ node c', Node.read room c = (node, some c') ∧ c'.rest = back ∧ P node

/-- If the reader reads this text to an end at all, whatever follows it, that is where it ends. -/
def Script.EndsRight (room : Nat) (s : Script) : Prop :=
  ∀ (c : Cursor) (gap : Gap) (back : List UInt8), Delimited back →
    c.rest = gap.octets ++ (s.octets ++ back) →
      ∀ node c', Node.read room c = (node, some c') → c'.rest = back

def TreeOf (room : Nat) (s : Script) (node : Node) : Prop := ∀ P, s.Yields room P → P node

def ItemsOf (room : Nat) : List Script → Items → Prop
  | [], .closed _ => True
  | value :: rest, .item _ node nodes => TreeOf room value node ∧ ItemsOf room rest nodes
  | _, _ => False

def MembersOf (room : Nat) : List (String × Script) → Members → Prop
  | [], .closed _ => True
  | (key, value) :: rest, .member name _ node nodes =>
    name = key ∧ TreeOf room value node ∧ MembersOf room rest nodes
  | _, _ => False

theorem Script.Yields.imp {s : Script} {P Q : Node → Prop} (h : s.Yields room P)
    (weaker : ∀ n, P n → Q n) : s.Yields room Q := by
  intro c gap back after here
  obtain ⟨node, c', read, rest, holds⟩ := h c gap back after here
  exact ⟨node, c', read, rest, weaker node holds⟩

theorem treeOf_read {s : Script} (gap : Gap) (after : Delimited back)
    (here : c.rest = gap.octets ++ (s.octets ++ back)) : TreeOf room s (Node.read room c).1 := by
  intro P yields
  obtain ⟨node, c', read, -, holds⟩ := yields c gap back after here
  rw [read]
  exact holds

namespace Cursor

theorem rest_skipSpaces_gap (gap : Gap) {b : UInt8} {rest : List UInt8} (h : isSpace b = false)
    (here : c.rest = gap.octets ++ b :: rest) : c.skipSpaces.rest = b :: rest := by
  rw [c.rest_skipSpaces, here, gap.dropWhile_append, List.dropWhile_cons_of_neg (by rw [h]; decide)]

theorem peek?_of_rest {b : UInt8} {rest : List UInt8} (here : c.rest = b :: rest) :
    c.peek? = some b := by rw [c.peek?_eq, here, List.head?_cons]

theorem rest_advance_of_rest {b : UInt8} {rest : List UInt8} (here : c.rest = b :: rest) :
    c.advance.rest = rest := by rw [c.rest_advance, here, List.tail_cons]

end Cursor

/-! Lists. -/

theorem readItems_closed (gap : Gap) {x : UInt8} {bound : List UInt8} (first : Bool)
    (here : c.rest = gap.octets ++ octet ']' :: back) :
    ∃ stop c', Node.readItems inner (x :: bound) first c = (.closed stop, some c') ∧
      c'.rest = back := by
  have spaces := Cursor.rest_skipSpaces_gap gap (by decide) here
  have next := Cursor.peek?_of_rest spaces
  refine ⟨c.skipSpaces.ahead, c.skipSpaces.advance, ?_, Cursor.rest_advance_of_rest spaces⟩
  simp only [Node.readItems, next, if_true]

theorem readItems_item (gap before : Gap) {x : UInt8} {bound octets : List UInt8} (first : Bool)
    (begins : ∃ b rest, octets = b :: rest ∧ endsToken b = false)
    (here : c.rest = gap.octets ++ (Script.separator first ++ (before.octets ++ octets))) :
    ∃ c₁ : Cursor, c₁.rest = octets ∧ Node.readItems inner (x :: bound) first c =
      Node.readItem inner (Node.readItems inner bound false) c₁ := by
  obtain ⟨b, rest, rfl, begins⟩ := begins
  have visible := isSpace_of_begins begins
  have notClosing : b ≠ octet ']' := by
    rintro rfl
    exact absurd begins (by decide)
  cases first with
  | true =>
    rw [Script.separator, if_pos rfl, List.nil_append, gap.append_octets] at here
    have spaces := Cursor.rest_skipSpaces_gap _ visible here
    refine ⟨c.skipSpaces, spaces, ?_⟩
    simp only [Node.readItems, Cursor.peek?_of_rest spaces, notClosing, if_false, if_true]
  | false =>
    have comma := Cursor.rest_skipSpaces_gap gap (by decide) here
    have spaces := Cursor.rest_skipSpaces_gap before visible (Cursor.rest_advance_of_rest comma)
    refine ⟨c.skipSpaces.advance.skipSpaces, spaces, ?_⟩
    have other : octet ',' ≠ octet ']' := by decide
    simp only [Node.readItems, Cursor.peek?_of_rest comma, Cursor.peek?_of_rest spaces, notClosing,
      other, Bool.false_eq_true, if_false, if_true]

/-! Objects. -/

theorem readMembers_closed (gap : Gap) {x : UInt8} {bound : List UInt8} (first : Bool)
    (here : c.rest = gap.octets ++ octet '\x7d' :: back) :
    ∃ stop c', Node.readMembers inner (x :: bound) first c = (.closed stop, some c') ∧
      c'.rest = back := by
  have spaces := Cursor.rest_skipSpaces_gap gap (by decide) here
  have next := Cursor.peek?_of_rest spaces
  refine ⟨c.skipSpaces.ahead, c.skipSpaces.advance, ?_, Cursor.rest_advance_of_rest spaces⟩
  simp only [Node.readMembers, next, if_true]

theorem readMembers_member (gap before : Gap) {x : UInt8} {bound octets : List UInt8} (first : Bool)
    (here : c.rest =
      gap.octets ++ (Script.separator first ++ (before.octets ++ octet '"' :: octets))) :
    ∃ c₁ : Cursor, c₁.rest = octet '"' :: octets ∧ Node.readMembers inner (x :: bound) first c =
      Node.readMember inner (Node.readMembers inner bound false) c₁ := by
  have notClosing : octet '"' ≠ octet '\x7d' := by decide
  cases first with
  | true =>
    rw [Script.separator, if_pos rfl, List.nil_append, gap.append_octets] at here
    have spaces := Cursor.rest_skipSpaces_gap _ (by decide) here
    refine ⟨c.skipSpaces, spaces, ?_⟩
    simp only [Node.readMembers, Cursor.peek?_of_rest spaces, notClosing, if_false, if_true]
  | false =>
    have comma := Cursor.rest_skipSpaces_gap gap (by decide) here
    have spaces := Cursor.rest_skipSpaces_gap before (by decide) (Cursor.rest_advance_of_rest comma)
    refine ⟨c.skipSpaces.advance.skipSpaces, spaces, ?_⟩
    have other : octet ',' ≠ octet '\x7d' := by decide
    simp only [Node.readMembers, Cursor.peek?_of_rest comma, Cursor.peek?_of_rest spaces, other,
      Bool.false_eq_true, if_false, if_true]

theorem readMember_script {more : Cursor → Reading Members} (key : Literal) (middle gap : Gap)
    {value : Script} (ends : value.EndsRight room) (after : Delimited back)
    (here : c.rest = key.octets ++
      (middle.octets ++ octet ':' :: (gap.octets ++ (value.octets ++ back)))) :
    ∃ spot node c', c'.rest = back ∧ TreeOf room value node ∧
      Node.readMember (Node.read room) more c =
        (.member key.text spot node (more c').1, (more c').2) := by
  obtain ⟨c₁, string, rest₁⟩ :=
    Scanner.string_takes key _ c.advance (Cursor.rest_advance_of_rest here)
  have colon := Cursor.rest_skipSpaces_gap middle (by decide) rest₁
  have start := Cursor.rest_advance_of_rest colon
  obtain ⟨past, skips, restPast⟩ := Cursor.skipValue_script _ value gap after start
  have tree : TreeOf room value (Node.read room c₁.skipSpaces.advance).1 :=
    treeOf_read gap after start
  cases read : Node.read room c₁.skipSpaces.advance with
  | mk node stop =>
    rw [read] at tree
    cases stop with
    | none =>
      refine ⟨Node.keySpot c₁, node, past, restPast, tree, ?_⟩
      simp only [Node.readMember, string, Cursor.peek?_of_rest colon, read, skips, ne_eq,
        not_true_eq_false, if_false]
    | some c' =>
      refine ⟨Node.keySpot c₁, node, c', ends _ gap back after start node c' read, tree, ?_⟩
      simp only [Node.readMember, string, Cursor.peek?_of_rest colon, read, ne_eq,
        not_true_eq_false, if_false]

/-! Values. -/

theorem read_token {t : Token} (gap : Gap) (here : c.rest = gap.octets ++ (t.octets ++ back)) :
    ∃ c₁ : Cursor, c₁.rest = t.octets ++ back ∧ Node.read room c = Node.readScalar c₁ := by
  obtain ⟨b, rest, octets, begins, noList, noObject⟩ := t.head
  rw [octets, List.cons_append] at here
  have spaces := Cursor.rest_skipSpaces_gap gap (isSpace_of_begins begins) here
  have next := Cursor.peek?_of_rest spaces
  refine ⟨c.skipSpaces, by rw [spaces, octets, List.cons_append], ?_⟩
  cases room <;> simp only [Node.read, next, Option.some_inj, noList, noObject, if_false]

theorem read_array (gap : Gap) {octets : List UInt8}
    (here : c.rest = gap.octets ++ octet '[' :: octets) :
    ∃ start bound c₁, bound.length = octets.length + 1 ∧ c₁.rest = octets ∧
      Node.read (room + 1) c =
        (.array start (Node.readItems (Node.read room) bound true c₁).1,
          (Node.readItems (Node.read room) bound true c₁).2) := by
  have spaces := Cursor.rest_skipSpaces_gap gap (by decide) here
  have next := Cursor.peek?_of_rest spaces
  refine ⟨c.skipSpaces.reached, c.skipSpaces.rest, c.skipSpaces.advance, by rw [spaces]; rfl,
    Cursor.rest_advance_of_rest spaces, ?_⟩
  simp only [Node.read, next, if_true]

theorem read_object (gap : Gap) {octets : List UInt8}
    (here : c.rest = gap.octets ++ octet '\x7b' :: octets) :
    ∃ start bound c₁, bound.length = octets.length + 1 ∧ c₁.rest = octets ∧
      Node.read (room + 1) c =
        (.object start (Node.readMembers (Node.read room) bound true c₁).1,
          (Node.readMembers (Node.read room) bound true c₁).2) := by
  have spaces := Cursor.rest_skipSpaces_gap gap (by decide) here
  have next := Cursor.peek?_of_rest spaces
  have noList : octet '\x7b' ≠ octet '[' := by decide
  refine ⟨c.skipSpaces.reached, c.skipSpaces.rest, c.skipSpaces.advance, by rw [spaces]; rfl,
    Cursor.rest_advance_of_rest spaces, ?_⟩
  simp only [Node.read, next, Option.some_inj, noList, if_false, if_true]

theorem Token.yields {t : Token} {s : Scalar} (h : t.scalar? = some s) :
    (Script.token t).Yields room fun n => ∃ stop, n = .scalar s stop := by
  intro c gap back after here
  rw [Script.octets] at here
  obtain ⟨c₁, rest₁, read⟩ := read_token gap here
  obtain ⟨c', run, rest⟩ := Scanner.scalar_takes h after c₁ rest₁
  refine ⟨.scalar s (Node.stopOf s c'), c', ?_, rest, _, rfl⟩
  rw [read, Node.readScalar, run]

theorem Token.endsRight (t : Token) : (Script.token t).EndsRight room := by
  intro c gap back after here node c' read
  rw [Script.octets] at here
  obtain ⟨c₁, rest₁, scalar⟩ := read_token gap here
  rw [scalar, Node.readScalar] at read
  split at read
  · cases read
  · next s past run =>
    obtain ⟨-, same⟩ := Prod.mk.inj read
    obtain rfl := Option.some_inj.mp same
    exact Scanner.scalar_stops t after c₁ s past rest₁ run

theorem Script.octets_pos (s : Script) : 0 < s.octets.length := by
  obtain ⟨b, rest, octets, -⟩ := s.head
  rw [octets]
  exact Nat.succ_pos _

theorem Script.Items.octets_pos (items : Items) (first : Bool) :
    0 < (items.octets first).length := by
  cases items with
  | closed => exact Nat.one_pos
  | item before value after rest =>
    have value := value.octets_pos
    simp only [Items.octets, List.length_append]
    omega

theorem Script.Members.octets_pos (members : Members) (first : Bool) :
    0 < (members.octets first).length := by
  cases members with
  | closed => exact Nat.one_pos
  | member before key middle inner value after rest =>
    have value := value.octets_pos
    simp only [Members.octets, List.length_append]
    omega

theorem read_zero_bracket (gap : Gap) {b : UInt8} {rest : List UInt8}
    (bracket : b = octet '[' ∨ b = octet '\x7b') (here : c.rest = gap.octets ++ b :: rest) :
    (Node.read 0 c).2 = none := by
  have visible : isSpace b = false := by rcases bracket with rfl | rfl <;> decide
  have next := Cursor.peek?_of_rest (Cursor.rest_skipSpaces_gap gap visible here)
  have noList : octet '\x7b' ≠ octet '[' := by decide
  rcases bracket with rfl | rfl
  · simp only [Node.read, next, if_true]
  · simp only [Node.read, next, Option.some_inj, noList, if_false, if_true]

mutual
theorem Script.endsRight (s : Script) (room : Nat) : s.EndsRight room := by
  cases s with
  | token t => exact t.endsRight
  | array inner items =>
    intro c gap back after here node c' read
    rw [Script.octets, List.cons_append, List.append_assoc] at here
    cases room with
    | zero =>
      have none := read_zero_bracket gap (.inl rfl) here
      rw [read] at none
      cases none
    | succ room =>
      obtain ⟨start, bound, c₁, long, rest₁, reads⟩ := read_array gap here
      rw [reads] at read
      simp only [List.length_append] at long
      exact items_endRight items inner (by omega) rest₁ c' (Prod.mk.inj read).2
  | object inner members =>
    intro c gap back after here node c' read
    rw [Script.octets, List.cons_append, List.append_assoc] at here
    cases room with
    | zero =>
      have none := read_zero_bracket gap (.inr rfl) here
      rw [read] at none
      cases none
    | succ room =>
      obtain ⟨start, bound, c₁, long, rest₁, reads⟩ := read_object gap here
      simp only [List.length_append] at long
      have enough : (members.octets true).length ≤ bound.length := by omega
      obtain ⟨ms, past, inside, stop, -⟩ := members_read members inner enough rest₁
      rw [reads, inside] at read
      exact Option.some_inj.mp (Prod.mk.inj read).2 ▸ stop

theorem items_endRight (items : Script.Items) {room : Nat} {first : Bool} {bound back : List UInt8}
    {c : Cursor} (gap : Gap) (long : (items.octets first).length ≤ bound.length)
    (here : c.rest = gap.octets ++ (items.octets first ++ back)) (c' : Cursor)
    (read : (Node.readItems (Node.read room) bound first c).2 = some c') : c'.rest = back := by
  cases bound with
  | nil => exact absurd (items.octets_pos first) (Nat.not_lt.mpr long)
  | cons x bound =>
    cases items with
    | closed =>
      rw [Script.Items.octets, List.singleton_append] at here
      obtain ⟨stop, past, reads, rest⟩ := readItems_closed gap first here
      rw [reads] at read
      exact Option.some_inj.mp read ▸ rest
    | item before value after rest =>
      have some := value.octets_pos
      have shorter : (rest.octets false).length ≤ bound.length := by
        simp only [Script.Items.octets, List.length_append, List.length_cons] at long
        omega
      rw [Script.Items.octets_item] at here
      obtain ⟨c₁, rest₁, reads⟩ := readItems_item gap before first (value.head_append _) here
      rw [reads, Node.readItem] at read
      split at read
      · cases read
      · next node past inner =>
        have start := value.endsRight room c₁ .none _ (after.delimited (rest.delimited back)) rest₁
          node past inner
        exact items_endRight rest after shorter start c' read

theorem members_read (members : Script.Members) {room : Nat} {first : Bool}
    {bound back : List UInt8} {c : Cursor} (gap : Gap)
    (long : (members.octets first).length ≤ bound.length)
    (here : c.rest = gap.octets ++ (members.octets first ++ back)) :
    ∃ ms c', Node.readMembers (Node.read room) bound first c = (ms, some c') ∧ c'.rest = back ∧
      MembersOf room members.toList ms := by
  cases bound with
  | nil => exact absurd (members.octets_pos first) (Nat.not_lt.mpr long)
  | cons x bound =>
    cases members with
    | closed =>
      rw [Script.Members.octets, List.singleton_append] at here
      obtain ⟨stop, past, reads, rest⟩ := readMembers_closed gap first here
      exact ⟨.closed stop, past, reads, rest, trivial⟩
    | member before key middle inner value after rest =>
      have some := value.octets_pos
      have shorter : (rest.octets false).length ≤ bound.length := by
        simp only [Script.Members.octets, List.length_append, List.length_cons] at long
        omega
      rw [Script.Members.octets_member] at here
      obtain ⟨c₁, rest₁, reads⟩ := readMembers_member gap before first here
      obtain ⟨spot, node, past, start, tree, reads'⟩ := readMember_script key middle inner
        (value.endsRight room) (after.delimited (rest.delimited back)) rest₁
      obtain ⟨ms, c', more, stop, trees⟩ := members_read rest after shorter start
      refine ⟨.member key.text spot node ms, c', ?_, stop, rfl, tree, trees⟩
      rw [reads, reads', more]
end

theorem items_read (items : Script.Items) {room : Nat} {first : Bool} {bound back : List UInt8}
    {c : Cursor} (gap : Gap) (readable : ∀ s ∈ items.toList, ∃ P, s.Yields room P)
    (long : (items.octets first).length ≤ bound.length)
    (here : c.rest = gap.octets ++ (items.octets first ++ back)) :
    ∃ its c', Node.readItems (Node.read room) bound first c = (its, some c') ∧ c'.rest = back ∧
      ItemsOf room items.toList its := by
  cases bound with
  | nil => exact absurd (items.octets_pos first) (Nat.not_lt.mpr long)
  | cons x bound =>
    cases items with
    | closed =>
      rw [Script.Items.octets, List.singleton_append] at here
      obtain ⟨stop, past, reads, rest⟩ := readItems_closed gap first here
      exact ⟨.closed stop, past, reads, rest, trivial⟩
    | item before value after rest =>
      have some := value.octets_pos
      have shorter : (rest.octets false).length ≤ bound.length := by
        simp only [Script.Items.octets, List.length_append, List.length_cons] at long
        omega
      rw [Script.Items.octets_item] at here
      obtain ⟨c₁, rest₁, reads⟩ := readItems_item gap before first (value.head_append _) here
      have followed := after.delimited (rest.delimited back)
      have tree : TreeOf room value (Node.read room c₁).1 := treeOf_read .none followed rest₁
      obtain ⟨P, yields⟩ := readable value List.mem_cons_self
      obtain ⟨node, past, inner, start, -⟩ := yields c₁ .none _ followed rest₁
      obtain ⟨its, c', more, stop, trees⟩ := items_read rest after
        (fun s hs => readable s (List.mem_cons_of_mem _ hs)) shorter start
      rw [inner] at tree
      refine ⟨.item c₁.ahead node its, c', ?_, stop, tree, trees⟩
      rw [reads, Node.readItem, inner]
      simp only [more]

theorem Script.yields_array (inner : Gap) {items : Items}
    (readable : ∀ s ∈ items.toList, ∃ P, s.Yields room P) :
    (Script.array inner items).Yields (room + 1) fun n =>
      ∃ start its, n = .array start its ∧ ItemsOf room items.toList its := by
  intro c gap back after here
  rw [Script.octets, List.cons_append, List.append_assoc] at here
  obtain ⟨start, bound, c₁, long, rest₁, reads⟩ := read_array gap here
  simp only [List.length_append] at long
  have enough : (items.octets true).length ≤ bound.length := by omega
  obtain ⟨its, c', inside, stop, trees⟩ := items_read items inner readable enough rest₁
  exact ⟨.array start its, c', by rw [reads, inside], stop, start, its, rfl, trees⟩

theorem Script.yields_object (inner : Gap) (members : Members) :
    (Script.object inner members).Yields (room + 1) fun n =>
      ∃ start ms, n = .object start ms ∧ MembersOf room members.toList ms := by
  intro c gap back after here
  rw [Script.octets, List.cons_append, List.append_assoc] at here
  obtain ⟨start, bound, c₁, long, rest₁, reads⟩ := read_object gap here
  simp only [List.length_append] at long
  have enough : (members.octets true).length ≤ bound.length := by omega
  obtain ⟨ms, c', inside, stop, trees⟩ := members_read members inner enough rest₁
  exact ⟨.object start ms, c', by rw [reads, inside], stop, start, ms, rfl, trees⟩

theorem Document.decode_read {α : Type} {decode : Node → Except Fault α} {a : α} {s : Script}
    (h : s.Yields room fun n => decode n = .ok a) (origin : Origin) (before after : Gap) :
    (Document.read room origin (before.octets ++ (s.octets ++ after.octets))).decode decode =
      .ok a := by
  have ending : Delimited after.octets := by
    have delimited : Delimited (after.octets ++ []) := after.delimited (fun _ h => nomatch h)
    rwa [List.append_nil] at delimited
  obtain ⟨node, c', read, rest, decodes⟩ := h ⟨_, {}, origin⟩ before after.octets ending rfl
  have past : c'.skipSpaces.rest = [] := by
    rw [c'.rest_skipSpaces, rest, ← List.append_nil after.octets, after.dropWhile_append]
    rfl
  rw [Document.read, read]
  simp only [past, List.isEmpty_nil, if_true, Document.decode, decodes]
  rfl

end FieldProcedure.Json
