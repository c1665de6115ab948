import FieldProcedure.Json.Cursor
import FieldProcedure.Proofs.Scripts

/-! What scanners take. Where a scanner stands in the text has no influence on what it answers: only
the octets ahead of it have. A scanner that takes some octets does so before any others, as long as
these cannot belong to the same token. -/
namespace FieldProcedure.Json

namespace Cursor

variable (c : Cursor)

theorem peek?_eq : c.peek? = c.rest.head? := rfl

theorem rest_advance : c.advance.rest = c.rest.tail := by
  rw [advance]
  split
  · next none => rw [none, List.tail_nil]
  · next some => rw [some, List.tail_cons]

theorem rest_skipWhile (p : UInt8 → Bool) (octets : List UInt8) (place : Place) :
    (skipWhile p octets place).1 = octets.dropWhile p := by
  induction octets generalizing place with
  | nil => rfl
  | cons b octets ih =>
    rw [skipWhile, List.dropWhile_cons]
    split
    · exact ih _
    · rfl

theorem rest_dropWhile (p : UInt8 → Bool) : (c.dropWhile p).rest = c.rest.dropWhile p :=
  rest_skipWhile p c.rest c.place

theorem rest_skipSpaces : c.skipSpaces.rest = c.rest.dropWhile isSpace := c.rest_dropWhile isSpace

end Cursor

theorem Gap.dropWhile_append (g : Gap) (octets : List UInt8) :
    (g.octets ++ octets).dropWhile isSpace = octets.dropWhile isSpace := by
  rw [List.dropWhile_append_of_pos g.blank]

namespace Scanner

variable {α β : Type} {m : Scanner α} {k : α → Scanner β} {a : α} {b : β}
  {front middle back : List UInt8} {x : UInt8}

/-- Before `front` the scanner answers `a`, and it stops before `back`. -/
def Takes (m : Scanner α) (front : List UInt8) (a : α) (back : List UInt8) : Prop :=
  ∀ c : Cursor, c.rest = front → ∃ c', m.run c = .ok (a, c') ∧ c'.rest = back

def Stops (m : Scanner α) (front back : List UInt8) : Prop :=
  ∀ (c : Cursor) (a : α) (c' : Cursor), c.rest = front → m.run c = .ok (a, c') → c'.rest = back

theorem Takes.pure (a : α) (front : List UInt8) : Takes (pure a) front a front :=
  fun c here => ⟨c, rfl, here⟩

theorem Takes.get_bind {k : Cursor → Scanner β}
    (later : ∀ c : Cursor, c.rest = front → Takes (k c) front b back) :
    Takes (get >>= k) front b back :=
  fun c here => later c here c here

theorem Takes.modify {f : Cursor → Cursor} (h : ∀ c : Cursor, c.rest = front → (f c).rest = back) :
    Takes (modify f) front () back :=
  fun c here => ⟨f c, rfl, h c here⟩

/-- Before `front` the one scanner does what the other does before `back`. -/
def Continues (m : Scanner α) (front : List UInt8) (m' : Scanner α) (back : List UInt8) : Prop :=
  ∀ c : Cursor, c.rest = front → ∃ c', c'.rest = back ∧ m.run c = m'.run c'

theorem Takes.continues (h : Takes m front a back) : Continues (m >>= k) front (k a) back := by
  intro c here
  obtain ⟨c', run, rest⟩ := h c here
  refine ⟨c', rest, ?_⟩
  rw [StateT.run_bind, run]
  rfl

namespace Continues

variable {m₁ m₂ m₃ : Scanner α} {final : List UInt8}

theorem refl (m : Scanner α) (front : List UInt8) : Continues m front m front :=
  fun c here => ⟨c, here, rfl⟩

theorem trans (first : Continues m₁ front m₂ middle) (second : Continues m₂ middle m₃ back) :
    Continues m₁ front m₃ back := by
  intro c here
  obtain ⟨c₁, rest₁, run₁⟩ := first c here
  obtain ⟨c₂, rest₂, run₂⟩ := second c₁ rest₁
  exact ⟨c₂, rest₂, run₁.trans run₂⟩

theorem bind {k : α → Scanner β} (h : Continues m₁ front m₂ back) :
    Continues (m₁ >>= k) front (m₂ >>= k) back := by
  intro c here
  obtain ⟨c', rest, run⟩ := h c here
  exact ⟨c', rest, by rw [StateT.run_bind, run, StateT.run_bind]⟩

theorem takes (h : Continues m₁ front m₂ back) (later : Takes m₂ back a final) :
    Takes m₁ front a final := by
  intro c here
  obtain ⟨c', rest, run⟩ := h c here
  rw [run]
  exact later c' rest

theorem stops (h : Continues m₁ front m₂ back) (later : Stops m₂ back final) :
    Stops m₁ front final := by
  intro c a c₂ here answer
  obtain ⟨c', rest, run⟩ := h c here
  rw [run] at answer
  exact later c' a c₂ rest answer

end Continues

theorem Takes.bind (first : Takes m front a middle) (second : Takes (k a) middle b back) :
    Takes (m >>= k) front b back :=
  first.continues.takes second

theorem Takes.stops_bind (first : Takes m front a middle) (second : Stops (k a) middle back) :
    Stops (m >>= k) front back :=
  first.continues.stops second

theorem Takes.stops (h : Takes m front a back) : Stops m front back := by
  intro c a' c' here run
  obtain ⟨c₁, run₁, rest₁⟩ := h c here
  rw [run] at run₁
  cases run₁
  exact rest₁

theorem Stops.of_fails (h : ∀ c, ∃ fault, m.run c = .error fault) : Stops m front back := by
  intro c a c' _ run
  obtain ⟨fault, fails⟩ := h c
  rw [fails] at run
  cases run

theorem failHere_stops (cause : Cause) : Stops (failHere cause : Scanner α) front back :=
  Stops.of_fails fun _ => ⟨_, rfl⟩

theorem failReached_stops (cause : Cause) : Stops (failReached cause : Scanner α) front back :=
  Stops.of_fails fun _ => ⟨_, rfl⟩

theorem Stops.get_bind {k : Cursor → Scanner β}
    (later : ∀ c : Cursor, c.rest = front → Stops (k c) front back) :
    Stops (get >>= k) front back :=
  fun c b c' here run => later c here c b c' here run

/-! The next octet. -/

theorem peek_takes : Takes peek front front.head? front :=
  fun c here => ⟨c, by rw [← here]; rfl, here⟩

theorem peek_takes_some : Takes peek (x :: back) (some x) (x :: back) := peek_takes

theorem advance_takes : Takes advance (x :: back) () back :=
  Takes.modify fun c here => by rw [c.rest_advance, here, List.tail_cons]

theorem next_takes : Takes next (x :: back) (some x) back :=
  peek_takes.bind (advance_takes.bind (.pure _ _))

theorem nextInString_takes : Takes nextInString (x :: back) x back :=
  next_takes.bind (.pure x back)

theorem accept_takes : Takes (accept x) (x :: back) true back := by
  refine peek_takes.bind ?_
  rw [if_pos List.head?_cons]
  exact advance_takes.bind (.pure _ _)

theorem accept_takes_nothing (h : x ∉ back.head?) : Takes (accept x) back false back := by
  refine peek_takes.bind ?_
  rw [if_neg (by rwa [Option.mem_def] at h)]
  exact .pure _ _

theorem skipSpaces_takes (g : Gap) (h : ∀ x ∈ back.head?, isSpace x = false) :
    Takes skipSpaces (g.octets ++ back) () back := by
  refine Takes.modify fun c here => ?_
  rw [c.rest_skipSpaces, here, g.dropWhile_append]
  cases back with
  | nil => rfl
  | cons x back => rw [List.dropWhile_cons_of_neg (by rw [h x rfl]; decide)]

theorem literal_takes (letters : List Char) (back : List UInt8) :
    Takes (literal letters) (word letters ++ back) () back := by
  induction letters with
  | nil => exact .pure () back
  | cons letter letters ih =>
    refine next_takes.bind ?_
    dsimp only
    rw [if_pos rfl]
    exact ih

theorem isDigit_digitOctet : ∀ d : Fin 10, isDigit (digitOctet d) = true := by decide

theorem span_digits (ds : List (Fin 10)) (h : ∀ x ∈ back.head?, isDigit x = false) :
    (ds.map digitOctet ++ back).takeWhile isDigit = ds.map digitOctet ∧
      (ds.map digitOctet ++ back).dropWhile isDigit = back := by
  have all : ∀ x ∈ ds.map digitOctet, isDigit x = true := by
    simp only [List.mem_map, forall_exists_index, and_imp, forall_apply_eq_imp_iff₂]
    exact fun d _ => isDigit_digitOctet d
  rw [List.takeWhile_append_of_pos all, List.dropWhile_append_of_pos all]
  cases back with
  | nil => exact ⟨List.append_nil _, rfl⟩
  | cons x back =>
    have other := h x rfl
    simp [other]

theorem dropDigits_takes (ds : List (Fin 10)) (h : ∀ x ∈ back.head?, isDigit x = false) :
    Takes (modify fun c => c.dropWhile isDigit) (ds.map digitOctet ++ back) () back :=
  Takes.modify fun c here => by rw [c.rest_dropWhile, here, (span_digits ds h).2]

theorem digits_takes (ds : List (Fin 10)) (h : ∀ x ∈ back.head?, isDigit x = false) :
    Takes digits (ds.map digitOctet ++ back) (ds.map digitOctet) back := by
  refine Takes.get_bind fun c here => (dropDigits_takes ds h).bind ?_
  rw [here, (span_digits ds h).1]
  exact .pure _ _

theorem exponentSign_takes (sign : Option Bool) (h : ∀ x ∈ back.head?, isDigit x = true) :
    Takes exponentSign (signOctets sign ++ back) (sign = some true) back := by
  rcases sign with _ | _ | _
  · have noSign {x : UInt8} (other : isDigit x = false) : x ∉ back.head? := fun next => by
      rw [h x next] at other
      cases other
    exact (accept_takes_nothing (noSign (by decide))).bind
      ((accept_takes_nothing (noSign (by decide))).bind (.pure _ _))
  · exact (accept_takes_nothing (by simp [signOctets, octet])).bind (accept_takes.bind (.pure _ _))
  · exact accept_takes.bind (.pure _ _)

theorem hexValue?_digit (h : Hex) : hexValue? h.digit = some h.value.val := by
  have table : ∀ (value : Fin 16) (capital : Bool),
      hexValue? (Hex.digit ⟨value, capital⟩) = some value.val := by decide
  exact table h.value h.capital

theorem hexEscape_takes (q : Quad) (back : List UInt8) :
    Takes hexEscape (q.octets.drop 2 ++ back) q.value back := by
  refine nextInString_takes.bind (nextInString_takes.bind
    (nextInString_takes.bind (nextInString_takes.bind ?_)))
  simp only [hexValue?_digit]
  exact .pure _ _

end Scanner
end FieldProcedure.Json
