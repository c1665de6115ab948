import FieldProcedure.Proofs.Reader
import FieldProcedure.Proofs.Rendering

/-! Indented markup loses nothing. A plain reader, which replaces the five entities by their
characters and takes everything else as it stands, reads the tree that was written. The elements of
a procedure document have names and attributes of a fixed vocabulary, so they are read back too. -/
namespace FieldProcedure.Markup

namespace Reader
open Xml

def entity? : List Char → Option Char
  | ['l', 't'] => some '<'
  | ['g', 't'] => some '>'
  | ['a', 'm', 'p'] => some '&'
  | ['a', 'p', 'o', 's'] => some '\''
  | ['q', 'u', 'o', 't'] => some '"'
  | _ => none

/-- Replaces each reference by what it stands for, and other characters one by one. A reference that
has begun is given by what has been read of it. -/
def expand (resolve : List Char → Option Char) (literal : Char → Char) :
    Option (List Char) → List Char → Option (List Char)
  | none, [] => some []
  | some _, [] => none
  | none, c :: cs =>
    if c = '&' then expand resolve literal (some []) cs
    else (expand resolve literal none cs).map (literal c :: ·)
  | some name, c :: cs =>
    if c = ';' then
      (resolve name).bind fun x => (expand resolve literal none cs).map (x :: ·)
    else expand resolve literal (some (name ++ [c])) cs

def escapes : List Char := ['<', '>', '&', '\'', '"']

theorem escapedChar_of_not_mem {c : Char} (hc : c ∉ escapes) : escapedChar c = c.toString := by
  simp only [escapes, List.mem_cons, List.not_mem_nil, or_false, not_or] at hc
  obtain ⟨h₁, h₂, h₃, h₄, h₅⟩ := hc
  simp [escapedChar, h₁, h₂, h₃, h₄, h₅]

theorem expand_written {resolve : List Char → Option Char} {literal : Char → Char}
    (entities : ∀ name x, entity? name = some x → resolve name = some x)
    (fixed : ∀ c ∈ escapes, literal c = c) (cs : List Char) :
    expand resolve literal none (written cs) = some (cs.map literal) := by
  induction cs with
  | nil => rfl
  | cons c rest ih =>
    rw [written_cons, List.map_cons]
    by_cases hc : c ∈ escapes
    · have reference (name : List Char) (hname : entity? name = some c) :
          (resolve name).bind (fun x => (expand resolve literal none (written rest)).map (x :: ·)) =
            some (literal c :: rest.map literal) := by
        rw [entities name c hname, ih, fixed c hc]
        rfl
      simp only [escapes, List.mem_cons, List.not_mem_nil, or_false] at hc
      rcases hc with rfl | rfl | rfl | rfl | rfl
      · exact reference ['l', 't'] rfl
      · exact reference ['g', 't'] rfl
      · exact reference ['a', 'm', 'p'] rfl
      · exact reference ['a', 'p', 'o', 's'] rfl
      · exact reference ['q', 'u', 'o', 't'] rfl
    · have other : c ≠ '&' := fun same => hc (by rw [same]; decide)
      rw [escapedChar_of_not_mem hc]
      simp [expand, other, ih]

def isPlainName (cs : List Char) : Bool :=
  !cs.isEmpty && cs.all fun c => !isSpace c && c ∉ ['<', '>', '&', '"', '\'', '/', '=']

def plain : Dialect where
  isName := isPlainName
  allowsKeys _ := true
  text? := expand entity? id none
  value? := expand entity? id none

theorem expand_of_no_reference {resolve : List Char → Option Char} {cs : List Char}
    (free : '&' ∉ cs) : expand resolve id none cs = some cs := by
  induction cs with
  | nil => rfl
  | cons c rest ih =>
    rw [List.mem_cons, not_or] at free
    simp [expand, Ne.symm free.1, ih free.2]

theorem not_mem_of_isSpace {cs : List Char} (space : cs.all isSpace = true) {c : Char}
    (hc : isSpace c = false) : c ∉ cs := fun hmem => by
  rw [List.all_eq_true.mp space c hmem] at hc
  cases hc

theorem plain_takes : plain.Takes id id where
  name cs h := by
    obtain ⟨nonempty, inside⟩ := Bool.and_eq_true_iff.mp h
    refine ⟨fun empty => by simp [empty] at nonempty, fun c hc => ?_⟩
    obtain ⟨space, other⟩ := Bool.and_eq_true_iff.mp (List.all_eq_true.mp inside c hc)
    simp only [List.mem_cons, List.not_mem_nil, or_false, not_or, decide_eq_true_eq] at other
    simp_all [endsName]
  text cs := (expand_written (fun _ _ => id) (fun _ _ => rfl) cs).trans (by simp)
  value cs := (expand_written (fun _ _ => id) (fun _ _ => rfl) cs).trans (by simp)
  space _ h := expand_of_no_reference (not_mem_of_isSpace h rfl)

def PlainNames (name : String) (attributes : List (String × String)) : Prop :=
  isPlainName name.toList = true ∧ ∀ a ∈ attributes, isPlainName a.1.toList = true

theorem read_plain {e : Element} (h : e.Regular PlainNames) :
    read plain (toText e).toList = some e := by
  have heads : e.Regular plain.Head := h.imp fun _ _ ⟨name, keys⟩ => ⟨name, keys, rfl⟩
  rw [read_toText plain_takes heads, Element.mapTexts_id]

theorem plainNames_of_listed {name : String} {attributes : List (String × String)}
    (h : Rendering.Listed name attributes) : PlainNames name attributes := by
  have every : ∀ entry ∈ Rendering.vocabulary, isPlainName entry.1.toList = true ∧
      ∀ key ∈ entry.2, isPlainName key.toList = true := by decide +kernel
  obtain ⟨plainName, plainKeys⟩ := every _ h
  exact ⟨plainName, fun a ha => plainKeys _ (List.mem_map_of_mem ha)⟩

/-- A plain reader finds in the indented markup of a tree the tree itself, down to blank texts and
to texts that look like markup. So different trees are written differently. The trees of procedure
documents are such trees. -/
theorem plain_reader_recovers :
    (∀ e : Element, e.Regular PlainNames → read plain (toText e).toList = some e) ∧
      (∀ e e' : Element, e.Regular PlainNames → e'.Regular PlainNames → e ≠ e' →
        toText e ≠ toText e') ∧
      ∀ p : Procedure, p.element.Regular PlainNames := by
  refine ⟨fun e h => read_plain h, fun e e' h h' differ same => differ ?_, fun p => ?_⟩
  · have both := read_plain h
    rw [same, read_plain h'] at both
    exact (Option.some.inj both).symm
  · exact p.regular_element.imp fun _ _ => plainNames_of_listed

def lookalike (inner : Option String) : Element where
  name := "Notes"
  attributes := [("Type", "\"/><Notes Type='"), ("Type", "a\n\tb")]
  children := [
    { name := "Note", text := some "&lt; &amp;lt; </Note>" },
    { name := "Note", text := some "\n  " },
    { name := "Note", text := inner }]

theorem lookalike_recovered :
    read plain (toText (lookalike (some ""))).toList = some (lookalike (some "")) ∧
      toText (lookalike (some "")) ≠ toText (lookalike none) := by
  have outer : PlainNames "Notes" (lookalike none).attributes := by
    unfold PlainNames
    decide
  have head : PlainNames "Note" [] := by
    unfold PlainNames
    decide
  have regular (inner : Option String) : (lookalike inner).Regular PlainNames := by
    have note : Element.Regular PlainNames ⟨"Note", [], inner, []⟩ := by
      cases inner with
      | none => exact .bare head
      | some text => exact .leaf head
    exact .of_children outer (List.forall_mem_cons.mpr ⟨.leaf head, List.forall_mem_cons.mpr
      ⟨.leaf head, List.forall_mem_singleton.mpr note⟩⟩)
  exact ⟨plain_reader_recovers.1 _ (regular _),
    plain_reader_recovers.2.1 _ _ (regular _) (regular _) (by simp [lookalike])⟩

end Reader
end FieldProcedure.Markup
