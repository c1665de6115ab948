import FieldProcedure.Proofs.Elements
import FieldProcedure.Procedure

/-! What a sink gets. Whatever the sink, the writer hands it the pieces of the document in order,
each once, up to the first that it refuses, at whatever depth of the tree that happens. So a sink of
limited room ends up with the front of the document's octets. -/
namespace FieldProcedure.Markup

variable {σ : Type}

def feed (sink : Sink σ) : List (List UInt8) → σ → Except WriteError Unit × σ
  | [], s => (.ok (), s)
  | piece :: rest, s =>
    match sink piece s with
    | (.ok (), s) => feed sink rest s
    | (.error e, s) => (.error e, s)

variable {sink : Sink σ} {s t : σ} {e : WriteError}

theorem feed_append_of_ok {first rest : List (List UInt8)} (h : feed sink first s = (.ok (), t)) :
    feed sink (first ++ rest) s = feed sink rest t := by
  induction first generalizing s with
  | nil =>
    cases h
    rfl
  | cons piece first ih =>
    rw [List.cons_append, feed]
    rw [feed] at h
    split at h
    · exact ih h
    · cases h

theorem feed_append_of_error {first rest : List (List UInt8)}
    (h : feed sink first s = (.error e, t)) : feed sink (first ++ rest) s = (.error e, t) := by
  induction first generalizing s with
  | nil => cases h
  | cons piece first ih =>
    rw [List.cons_append, feed]
    rw [feed] at h
    split at h
    · exact ih h
    · exact h

namespace Writing

variable {m m' : Writing σ Unit} {before middle after : Layout} {pieces more : List String}

/-- The computation hands these pieces over, and if all are taken it leaves the second layout. -/
def Hands (sink : Sink σ) (m : Writing σ Unit) (before : Layout) (pieces : List String)
    (after : Layout) : Prop :=
  ∀ s, match feed sink (pieces.map Text.Utf8.encode) s with
    | (.ok (), t) => m (s, before) = (.ok (), t, after)
    | (.error e, t) => ∃ layout, m (s, before) = (.error e, t, layout)

theorem bind_run {α β : Type} (m : Writing σ α) (f : α → Writing σ β) (w : σ × Layout) :
    (m >>= f) w = match m w with
      | (.ok a, w) => f a w
      | (.error e, w) => (.error e, w) := by
  change (ExceptT.bindCont f (m w).1) (m w).2 = _
  rcases m w with ⟨_ | _, _⟩ <;> rfl

theorem hands_pure : Hands sink (pure ()) before [] before := fun _ => rfl

theorem hands_setLayout : Hands sink (setLayout after) before [] after := fun _ => rfl

theorem Hands.bind (h : Hands sink m before pieces middle) (h' : Hands sink m' middle more after) :
    Hands sink (m >>= fun _ => m') before (pieces ++ more) after := by
  intro s
  rw [List.map_append]
  have first := h s
  split at first
  · next t taken =>
    rw [feed_append_of_ok taken]
    simp only [bind_run, first]
    exact h' t
  · next e t refused =>
    obtain ⟨layout, run⟩ := first
    rw [feed_append_of_error refused]
    simp only [bind_run, run]
    exact ⟨layout, rfl⟩

theorem hands_layout {f : Layout → Writing σ Unit} (h : Hands sink (f before) before pieces after) :
    Hands sink (layout >>= f) before pieces after := h

theorem hands_put (piece : String) : Hands sink (put sink piece) before [piece] before := by
  intro s
  have run : put sink piece (s, before) = ((sink (Text.Utf8.encode piece) s).1,
      (sink (Text.Utf8.encode piece) s).2, before) := rfl
  rw [run, List.map_singleton]
  cases answered : sink (Text.Utf8.encode piece) s with
  | mk answer t =>
    cases answer with
    | ok _ => simp only [feed, answered]
    | error e =>
      simp only [feed, answered]
      exact ⟨before, rfl⟩

theorem hands_putAll (pieces : List String) :
    Hands sink (putAll sink pieces) before pieces before := by
  induction pieces with
  | nil => exact hands_pure
  | cons piece rest ih => exact (hands_put piece).bind ih

variable (sink) (depth : Nat) (broken : Bool)

theorem hands_tag (front heading back : String) :
    Hands sink (tag sink front heading back) ⟨depth, broken⟩
      ((if broken then Xml.indent depth else []) ++ [front, heading, back]) ⟨depth, broken⟩ := by
  refine hands_layout ?_
  cases broken with
  | false => exact hands_putAll _
  | true => exact (hands_putAll _).bind (hands_putAll _)

theorem hands_opening (heading : String) :
    Hands sink (emit sink (.opening heading)) ⟨depth, broken⟩
      ((if broken then Xml.indent depth else []) ++ ["<", heading, ">"]) ⟨depth + 1, true⟩ := by
  have deeper : Hands sink (layout >>= fun here => setLayout ⟨here.depth + 1, true⟩)
      ⟨depth, broken⟩ [] ⟨depth + 1, true⟩ := hands_layout hands_setLayout
  have whole := (hands_tag sink depth broken "<" heading ">").bind deeper
  rwa [List.append_nil] at whole

theorem hands_single (heading : String) :
    Hands sink (emit sink (.single heading)) ⟨depth, broken⟩
      ((if broken then Xml.indent depth else []) ++ ["<", heading, "/>"]) ⟨depth, true⟩ := by
  have line : Hands sink (layout >>= fun here => setLayout ⟨here.depth, true⟩)
      ⟨depth, broken⟩ [] ⟨depth, true⟩ := hands_layout hands_setLayout
  have whole := (hands_tag sink depth broken "<" heading "/>").bind line
  rwa [List.append_nil] at whole

theorem hands_closing (name : String) :
    Hands sink (emit sink (.closing name)) ⟨depth + 1, broken⟩
      ((if broken then Xml.indent depth else []) ++ ["</", name, ">"]) ⟨depth, true⟩ := by
  have line : Hands sink (setLayout ⟨depth, true⟩) ⟨depth, broken⟩ [] ⟨depth, true⟩ :=
    hands_setLayout
  have whole := (hands_tag sink depth broken "</" name ">").bind line
  rw [List.append_nil] at whole
  exact hands_layout (hands_setLayout.bind whole)

theorem hands_content (text : Option String) :
    Hands sink (content sink text) ⟨depth, true⟩ (text.toList.map Xml.escaped)
      ⟨depth, text.isNone⟩ := by
  cases text with
  | none => exact hands_pure
  | some text =>
    have same : Hands sink (layout >>= fun here => setLayout ⟨here.depth, false⟩)
        ⟨depth, true⟩ [] ⟨depth, false⟩ := hands_layout hands_setLayout
    exact (hands_put (Xml.escaped text)).bind same

theorem hands_elements {es : List Element} (each : ∀ e ∈ es, ∀ depth broken,
    Hands sink (element sink e) ⟨depth, broken⟩ (Xml.pieces depth broken e) ⟨depth, true⟩) :
    Hands sink (elements sink es) ⟨depth, broken⟩
      (Xml.piecesAll depth broken es) ⟨depth, broken || !es.isEmpty⟩ := by
  induction es generalizing broken with
  | nil =>
    rw [List.isEmpty_nil, Bool.not_true, Bool.or_false]
    exact hands_pure
  | cons e rest ih =>
    obtain ⟨first, later⟩ := List.forall_mem_cons.mp each
    have whole := (first depth broken).bind (ih true later)
    rw [List.isEmpty_cons, Bool.not_false, Bool.or_true]
    exact whole

theorem hands_element (e : Element) : Hands sink (element sink e) ⟨depth, broken⟩
    (Xml.pieces depth broken e) ⟨depth, true⟩ := by
  induction e using Element.treeInduction generalizing depth broken with
  | h e ih =>
    obtain ⟨name, attributes, text, children⟩ := e
    have whole := (hands_opening sink depth broken (Xml.heading name attributes)).bind
      ((hands_content sink (depth + 1) text).bind
        ((hands_elements sink (depth + 1) text.isNone fun e he depth broken =>
          ih e he depth broken).bind (hands_closing sink depth _ name)))
    cases text with
    | none =>
      cases children with
      | nil => exact hands_single sink depth broken _
      | cons first rest => simpa [Xml.pieces, element] using whole
    | some text =>
      cases children with
      | nil => simpa [Xml.pieces, Xml.piecesAll, element] using whole
      | cons first rest => simpa [Xml.pieces, element] using whole

end Writing

def Xml.octetPieces (root : Element) : List (List UInt8) :=
  (pieces 0 false root).map Text.Utf8.encode

theorem Xml.flatten_octetPieces (root : Element) :
    (octetPieces root).flatten = Text.Utf8.encode (toText root) := by
  rw [octetPieces, Text.Utf8.encode, toText, String.toList_join, ← List.flatMap_def,
    List.flatMap_assoc]
  rfl

theorem Xml.writeTo_eq_feed (sink : Sink σ) (root : Element) (s : σ) :
    writeTo sink root s = feed sink (octetPieces root) s := by
  have hands := Writing.hands_element sink 0 false root s
  rw [octetPieces, writeTo]
  split at hands
  · next t taken =>
    rw [taken]
    exact congrArg (fun w => (w.1, w.2.1)) hands
  · next e t refused =>
    obtain ⟨layout, run⟩ := hands
    rw [refused]
    exact congrArg (fun w => (w.1, w.2.1)) run

theorem feed_limited (pieces : List (List UInt8)) (l : Limited) :
    feed Limited.take pieces l = Limited.take pieces.flatten l := by
  induction pieces generalizing l with
  | nil => simp [feed, Limited.take]
  | cons piece rest ih =>
    have total : (piece ++ rest.flatten).length = piece.length + rest.flatten.length :=
      List.length_append
    rw [feed, List.flatten_cons]
    by_cases fits : piece.length ≤ l.room
    · have later : rest.flatten.length ≤ l.room - piece.length ↔
          (piece ++ rest.flatten).length ≤ l.room := by omega
      have room : l.room - piece.length - rest.flatten.length =
          l.room - (piece ++ rest.flatten).length := by omega
      have taken : l.taken ++ piece.take l.room ++ rest.flatten.take (l.room - piece.length) =
          l.taken ++ (piece ++ rest.flatten).take l.room := by
        rw [← Array.toList_inj]
        simp only [Array.toList_appendList, List.take_append, List.append_assoc]
      simp only [Limited.take, if_pos fits, ih, later, room, taken]
    · have none : ¬(piece ++ rest.flatten).length ≤ l.room := by omega
      have room : l.room - piece.length = l.room - (piece ++ rest.flatten).length := by omega
      have taken : piece.take l.room = (piece ++ rest.flatten).take l.room := by
        rw [List.take_append_of_le_length (by omega)]
      simp only [Limited.take, if_neg fits, if_neg none, room, taken]

def collecting : Sink (List UInt8) := fun octets s => (.ok (), s ++ octets)

theorem feed_collecting (pieces : List (List UInt8)) (s : List UInt8) :
    feed collecting pieces s = (.ok (), s ++ pieces.flatten) := by
  induction pieces generalizing s with
  | nil => rw [feed, List.flatten_nil, List.append_nil]
  | cons piece rest ih =>
    rw [feed, collecting]
    exact (ih (s ++ piece)).trans (by rw [List.append_assoc, List.flatten_cons])

end FieldProcedure.Markup

namespace FieldProcedure
open Markup

/-- Any sink is handed the octets of the document piece by piece, in order and each once, until it
refuses one. A sink that takes everything gets the whole text. One that has room for so many octets
gets as many from the front, and the writing succeeds if that is all of them. -/
theorem sinks_get_front (p : Procedure) :
    (∃ pieces : List (List UInt8), pieces.flatten = Text.Utf8.encode p.xml ∧
      ∀ (σ : Type) (sink : Sink σ) (s : σ),
        Xml.writeTo sink p.element s = feed sink pieces s) ∧
    Xml.writeTo collecting p.element [] = (.ok (), Text.Utf8.encode p.xml) ∧
    ∀ (refusal : String) (room : Nat), p.writeXml refusal room = {
      outcome := if (Text.Utf8.encode p.xml).length ≤ room then .ok () else .error ⟨refusal⟩
      octets := (Text.Utf8.encode p.xml).take (min room (Text.Utf8.encode p.xml).length) } := by
  have whole : (Xml.octetPieces p.element).flatten = Text.Utf8.encode p.xml :=
    Xml.flatten_octetPieces p.element
  refine ⟨⟨_, whole, fun σ sink s => Xml.writeTo_eq_feed sink p.element s⟩, ?_,
    fun refusal room => ?_⟩
  · rw [Xml.writeTo_eq_feed, feed_collecting, whole, List.nil_append]
  · rw [Procedure.writeXml, Xml.write, Xml.writeTo_eq_feed, feed_limited, whole, Limited.take]
    simp [List.take_eq_take_iff]

end FieldProcedure
