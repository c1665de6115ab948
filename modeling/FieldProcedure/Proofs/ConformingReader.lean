import FieldProcedure.Proofs.PlainReader
import FieldProcedure.Text.CaseTable
import Mathlib.Data.List.Infix

/-! Procedure documents as an XML 1.0 processor reads them. The writer escapes the characters of
markup and no others. A document is well-formed if its authored texts have only characters that XML
allows, and they come back if white space is such that the processor does not change it. -/
namespace FieldProcedure.Markup.Reader
open Xml

/-! ### XML 1.0 -/

/-- The characters of documents (production 2). -/
def isChar (c : Char) : Bool :=
  Text.inRanges [(0x9, 0xA), (0xD, 0xD), (0x20, 0xD7FF), (0xE000, 0xFFFD), (0x10000, 0x10FFFF)]
    c.toNat

def Legal (cs : List Char) : Prop := ∀ c ∈ cs, isChar c = true

instance (cs : List Char) : Decidable (Legal cs) := List.decidableBAll _ _

/-- The first characters of names (production 4). -/
def isNameStart (c : Char) : Bool :=
  Text.inRanges [(0x3A, 0x3A), (0x41, 0x5A), (0x5F, 0x5F), (0x61, 0x7A), (0xC0, 0xD6), (0xD8, 0xF6),
    (0xF8, 0x2FF), (0x370, 0x37D), (0x37F, 0x1FFF), (0x200C, 0x200D), (0x2070, 0x218F),
    (0x2C00, 0x2FEF), (0x3001, 0xD7FF), (0xF900, 0xFDCF), (0xFDF0, 0xFFFD), (0x10000, 0xEFFFF)]
    c.toNat

/-- The characters of names (production 4a). -/
def isNameChar (c : Char) : Bool :=
  isNameStart c || Text.inRanges [(0x2D, 0x2E), (0x30, 0x39), (0xB7, 0xB7), (0x300, 0x36F),
    (0x203F, 0x2040)] c.toNat

def isName : List Char → Bool
  | [] => false
  | c :: cs => isNameStart c && cs.all isNameChar

def digit? (base : Nat) (c : Char) : Option Nat :=
  let n :=
    if c.isDigit then c.toNat - 0x30
    else if 0x41 ≤ c.toNat ∧ c.toNat ≤ 0x46 then c.toNat - 0x37
    else if 0x61 ≤ c.toNat ∧ c.toNat ≤ 0x66 then c.toNat - 0x57
    else base
  if n < base then some n else none

def number? (base : Nat) : Nat → List Char → Option Nat
  | n, [] => some n
  | n, c :: cs => (digit? base c).bind fun d => number? base (n * base + d) cs

def legalChar? (n : Nat) : Option Char :=
  if n.isValidChar ∧ isChar (Char.ofNat n) then some (Char.ofNat n) else none

def reference? : List Char → Option Char
  | '#' :: 'x' :: c :: cs => (number? 16 0 (c :: cs)).bind legalChar?
  | '#' :: c :: cs => (number? 10 0 (c :: cs)).bind legalChar?
  | name => entity? name

/-- White space that stands in a value itself is read as blanks (section 3.3.3). -/
def blanked (c : Char) : Char := if isSpace c then ' ' else c

def conforming : Dialect where
  isName := isName
  allowsKeys keys := decide keys.Nodup
  text? cs := if [']', ']', '>'] <:+: cs then none else expand reference? id none cs
  value? := expand reference? blanked none

/-- A return before a line feed is dropped, and any other becomes a line feed (section 2.11). -/
def lineEnds : List Char → List Char
  | [] => []
  | c :: cs =>
    if c = '\r' then if cs.head? = some '\n' then lineEnds cs else '\n' :: lineEnds cs
    else c :: lineEnds cs

/-- The root element of a well-formed document, which may have no declarations, comments,
instructions and unparsed sections. -/
def parse (document : String) : Option Element :=
  if Legal document.toList then read conforming (lineEnds document.toList) else none

variable {a cs : List Char} {c : Char} {e : Element} {name : String}
  {attributes : List (String × String)}

/-! ### Characters -/

@[simp] theorem legal_nil : Legal [] := fun _ hc => nomatch hc

@[simp] theorem legal_cons : Legal (c :: cs) ↔ isChar c = true ∧ Legal cs := List.forall_mem_cons

@[simp] theorem legal_append {cs' : List Char} : Legal (cs ++ cs') ↔ Legal cs ∧ Legal cs' :=
  List.forall_mem_append

def Named (name : String) (attributes : List (String × String)) : Prop :=
  isName name.toList = true ∧ ∀ a ∈ attributes, isName a.1.toList = true

theorem isNameChar_of_mem (h : isName cs = true) (hc : c ∈ cs) : isNameChar c = true := by
  cases cs with
  | nil => cases hc
  | cons first rest =>
    simp only [isName, Bool.and_eq_true, List.all_eq_true] at h
    rcases List.mem_cons.mp hc with rfl | later
    · simp [isNameChar, h.1]
    · exact h.2 c later

theorem not_mem_name (h : isName cs = true) : '\r' ∉ cs := fun hmem =>
  absurd (isNameChar_of_mem h hmem) (by decide)

theorem isChar_of_isNameChar (h : isNameChar c = true) : isChar c = true := by
  simp [isNameChar, isNameStart, isChar, Text.inRanges] at h ⊢
  omega

theorem legal_name (h : isName cs = true) : Legal cs := fun _ hc =>
  isChar_of_isNameChar (isNameChar_of_mem h hc)

theorem legal_written : Legal (written cs) ↔ Legal cs := by
  have each (c : Char) : Legal (escapedChar c).toList ↔ isChar c = true := by
    by_cases hc : c ∈ escapes
    · simp only [escapes, List.mem_cons, List.not_mem_nil, or_false] at hc
      rcases hc with rfl | rfl | rfl | rfl | rfl <;> simp [escapedChar] <;> decide
    · simp [escapedChar_of_not_mem hc]
  induction cs with
  | nil => rfl
  | cons c rest ih => simp only [written_cons, legal_append, each, ih, legal_cons]

theorem isChar_mark : isChar '<' = true ∧ isChar '>' = true ∧ isChar '/' = true ∧
    isChar '=' = true ∧ isChar '"' = true ∧ isChar ' ' = true ∧ isChar '\n' = true := by decide

theorem legal_headChars (h : Named name attributes) :
    Legal (headChars name attributes) ↔ ∀ a ∈ attributes, Legal a.2.toList := by
  have each : ∀ a ∈ attributes, Legal (attributeChars a) ↔ Legal a.2.toList := fun a ha => by
    simp [attributeChars, isChar_mark, legal_name (h.2 a ha), legal_written]
  simp only [headChars, legal_append, legal_name h.1, true_and]
  rw [Legal, List.forall_mem_flatMap]
  exact forall₂_congr each

def LegalTexts (e : Element) : Prop := e.Holds (Legal ·.toList) (Legal ·.toList)

theorem legal_indent (depth : Nat) : Legal (indentChars depth) := by
  refine legal_cons.mpr ⟨by decide, fun c hc => ?_⟩
  rw [List.eq_of_mem_replicate hc]
  decide

theorem legal_lines {es : List Element}
    (each : ∀ e ∈ es, ∀ depth, Legal (chars depth e) ↔ LegalTexts e) (depth : Nat) :
    Legal (lines depth es) ↔ ∀ e ∈ es, LegalTexts e := by
  rw [lines, Legal, List.forall_mem_flatMap]
  refine forall₂_congr fun e he => ?_
  rw [← Legal, legal_append, iff_true_intro (legal_indent depth), true_and, each e he]

theorem legal_chars (h : e.Regular Named) (depth : Nat) :
    Legal (chars depth e) ↔ LegalTexts e := by
  induction h generalizing depth with
  | bare head =>
    rw [chars_bare, LegalTexts, Element.holds_iff]
    simp [isChar_mark, legal_headChars head]
  | leaf head =>
    rw [chars_leaf, LegalTexts, Element.holds_iff]
    simp [isChar_mark, legal_headChars head, legal_name head.1, legal_written]
  | branch head regular each =>
    rw [chars_branch, LegalTexts, Element.holds_children_iff]
    simp [isChar_mark, legal_headChars head, legal_name head.1, legal_lines each, legal_indent,
      LegalTexts]

/-! ### Line ends -/

theorem lineEnds_append (free : '\r' ∉ a) (b : List Char) :
    lineEnds (a ++ b) = a ++ lineEnds b := by
  induction a with
  | nil => rfl
  | cons c rest ih =>
    rw [List.mem_cons, not_or] at free
    rw [List.cons_append, lineEnds, if_neg (Ne.symm free.1), ih free.2, List.cons_append]

theorem lineEnds_before (hc : c ≠ '\n') (a b : List Char) :
    lineEnds (a ++ c :: b) = lineEnds a ++ lineEnds (c :: b) := by
  induction a with
  | nil => rfl
  | cons x rest ih =>
    have next : (rest ++ c :: b).head? = some '\n' ↔ rest.head? = some '\n' := by
      cases rest <;> simp [hc]
    rw [List.cons_append, lineEnds, lineEnds, ih]
    simp only [next]
    split_ifs <;> rfl

theorem not_mem_lineEnds (cs : List Char) : '\r' ∉ lineEnds cs := by
  induction cs with
  | nil => exact List.not_mem_nil
  | cons c rest ih =>
    rw [lineEnds]
    split_ifs with hc
    · exact ih
    · simp [ih]
    · simp [ih, Ne.symm hc]

theorem lineEnds_eq_self_iff : lineEnds cs = cs ↔ '\r' ∉ cs := by
  refine ⟨fun same => same ▸ not_mem_lineEnds cs, fun free => ?_⟩
  have whole := lineEnds_append free []
  rwa [List.append_nil, lineEnds, List.append_nil] at whole

theorem free_escapedChar (hc : c ≠ '\r') : '\r' ∉ (escapedChar c).toList := by
  unfold escapedChar
  split_ifs
  case neg => simpa [Char.toString] using Ne.symm hc
  all_goals decide

theorem head?_written (cs : List Char) : (written cs).head? = some '\n' ↔ cs.head? = some '\n' := by
  cases cs with
  | nil => rfl
  | cons c rest =>
    rw [written_cons, List.head?_cons]
    by_cases hc : c ∈ escapes
    · simp only [escapes, List.mem_cons, List.not_mem_nil, or_false] at hc
      rcases hc with rfl | rfl | rfl | rfl | rfl <;> simp [escapedChar]
    · rw [escapedChar_of_not_mem hc]
      simp

theorem lineEnds_written (cs : List Char) : lineEnds (written cs) = written (lineEnds cs) := by
  induction cs with
  | nil => rfl
  | cons c rest ih =>
    by_cases hc : c = '\r'
    · subst hc
      have plain : written ('\r' :: rest) = '\r' :: written rest := rfl
      rw [plain, lineEnds, lineEnds]
      simp only [head?_written, ih, if_true]
      split_ifs <;> rfl
    · rw [written_cons, lineEnds_append (free_escapedChar hc), ih, lineEnds, if_neg hc,
        written_cons]

theorem lineEnds_value (value : String) (cs : List Char) :
    lineEnds (written value.toList ++ '"' :: cs) =
      written (Element.mapText lineEnds value).toList ++ '"' :: lineEnds cs := by
  rw [lineEnds_before (by decide), lineEnds_written, Element.toList_mapText]
  rfl

theorem lineEnds_attributes (free : ∀ a ∈ attributes, '\r' ∉ a.1.toList) (cs : List Char) :
    lineEnds (attributes.flatMap attributeChars ++ cs) =
      (Element.mapValues lineEnds attributes).flatMap attributeChars ++ lineEnds cs := by
  induction attributes with
  | nil => rfl
  | cons entry rest ih =>
    obtain ⟨here, later⟩ := List.forall_mem_cons.mp free
    have key : '\r' ∉ ' ' :: (entry.1.toList ++ ['=', '"']) := by simp [here]
    calc lineEnds ((entry :: rest).flatMap attributeChars ++ cs)
        = lineEnds ((' ' :: (entry.1.toList ++ ['=', '"'])) ++ (written entry.2.toList ++
            '"' :: (rest.flatMap attributeChars ++ cs))) := by
          simp [attributeChars]
      _ = (' ' :: (entry.1.toList ++ ['=', '"'])) ++
            (written (Element.mapText lineEnds entry.2).toList ++ '"' ::
              ((Element.mapValues lineEnds rest).flatMap attributeChars ++ lineEnds cs)) := by
          rw [lineEnds_append key, lineEnds_value, ih later]
      _ = _ := by
          simp [attributeChars, Element.mapValues]

theorem lineEnds_head (h : Named name attributes) (cs : List Char) :
    lineEnds ('<' :: (headChars name attributes ++ cs)) =
      '<' :: (headChars name (Element.mapValues lineEnds attributes) ++ lineEnds cs) := by
  have free : '\r' ∉ '<' :: name.toList := by simp [not_mem_name h.1]
  have keys : ∀ a ∈ attributes, '\r' ∉ a.1.toList := fun a ha => not_mem_name (h.2 a ha)
  rw [headChars, List.append_assoc, ← List.cons_append, lineEnds_append free,
    lineEnds_attributes keys, headChars, List.cons_append, List.append_assoc]

theorem lineEnds_closing (h : Named name attributes) (cs : List Char) :
    lineEnds ('<' :: ('/' :: (name.toList ++ ['>'])) ++ cs) =
      '<' :: ('/' :: (name.toList ++ ['>'])) ++ lineEnds cs :=
  lineEnds_append (by simp [not_mem_name h.1]) cs

theorem lineEnds_indent (depth : Nat) (cs : List Char) :
    lineEnds (indentChars depth ++ cs) = indentChars depth ++ lineEnds cs :=
  lineEnds_append (by simp [indentChars, List.mem_replicate]) cs

theorem lineEnds_lines {es : List Element} (each : ∀ e ∈ es, ∀ depth cs,
      lineEnds (chars depth e ++ cs) = chars depth (e.mapTexts lineEnds lineEnds) ++ lineEnds cs)
    (depth : Nat) (cs : List Char) : lineEnds (lines depth es ++ cs) =
      lines depth (es.map (Element.mapTexts lineEnds lineEnds)) ++ lineEnds cs := by
  induction es with
  | nil => rfl
  | cons e rest ih =>
    obtain ⟨here, later⟩ := List.forall_mem_cons.mp each
    rw [lines, List.flatMap_cons, ← lines, List.append_assoc, List.append_assoc, lineEnds_indent,
      here, ih later]
    simp [lines]

theorem lineEnds_chars (h : e.Regular Named) (depth : Nat) (cs : List Char) :
    lineEnds (chars depth e ++ cs) =
      chars depth (e.mapTexts lineEnds lineEnds) ++ lineEnds cs := by
  have mark (cs : List Char) : lineEnds ('>' :: cs) = '>' :: lineEnds cs := rfl
  induction h generalizing depth cs with
  | bare head =>
    have single (cs : List Char) : lineEnds ('/' :: '>' :: cs) = '/' :: '>' :: lineEnds cs := rfl
    simp [Element.mapTexts, Element.mapTextsAll, chars_bare, lineEnds_head head, single]
  | @leaf name attributes text head =>
    let closing := '<' :: ('/' :: (name.toList ++ ['>']))
    have text_closing : lineEnds (written text.toList ++ (closing ++ cs)) =
        written (lineEnds text.toList) ++ (closing ++ lineEnds cs) := by
      rw [List.cons_append, lineEnds_before (by decide), lineEnds_written, ← List.cons_append,
        lineEnds_closing head]
    calc lineEnds (chars depth ⟨name, attributes, some text, []⟩ ++ cs)
        = lineEnds ('<' :: (headChars name attributes ++
            '>' :: (written text.toList ++ (closing ++ cs)))) := by
          simp [chars_leaf, closing]
      _ = '<' :: (headChars name (Element.mapValues lineEnds attributes) ++
            '>' :: (written (lineEnds text.toList) ++ (closing ++ lineEnds cs))) := by
          rw [lineEnds_head head, mark, text_closing]
      _ = _ := by
          simp [Element.mapTexts, Element.mapTextsAll, chars_leaf, closing]
  | @branch name attributes first rest head regular each =>
    let closing := '<' :: ('/' :: (name.toList ++ ['>']))
    calc lineEnds (chars depth ⟨name, attributes, none, first :: rest⟩ ++ cs)
        = lineEnds ('<' :: (headChars name attributes ++
            '>' :: (lines (depth + 1) (first :: rest) ++
              (indentChars depth ++ (closing ++ cs))))) := by
          simp [chars_branch, closing]
      _ = '<' :: (headChars name (Element.mapValues lineEnds attributes) ++
            '>' :: (lines (depth + 1) ((first :: rest).map (Element.mapTexts lineEnds lineEnds)) ++
              (indentChars depth ++ (closing ++ lineEnds cs)))) := by
          rw [lineEnds_head head, mark, lineEnds_lines each, lineEnds_indent, lineEnds_closing head]
      _ = _ := by
          simp [Element.mapTexts, Element.mapTextsAll_eq, chars_branch, closing]

/-! ### Documents -/

theorem reference?_of_entity? {name : List Char} (h : entity? name = some c) :
    reference? name = some c := by
  unfold entity? at h
  split at h
  case h_6 => cases h
  all_goals exact h

theorem conforming_takes : conforming.Takes id (List.map blanked) where
  name cs h := by
    refine ⟨fun empty => by simp [empty, conforming, isName] at h, fun c hc => ?_⟩
    have named := isNameChar_of_mem h hc
    have other (x : Char) (hx : isNameChar x = false) : c ≠ x := by
      rintro rfl
      rw [named] at hx
      cases hx
    simp [endsName, isSpace, other ' ' rfl, other '\t' rfl, other '\n' rfl, other '\r' rfl,
      other '/' rfl, other '>' rfl, other '=' rfl, other '<' rfl]
  text cs := by
    have free : ¬ [']', ']', '>'] <:+: written cs := fun inside =>
      not_mem_written (c := '>') (by simp) (inside.subset (by simp))
    have fixed : ∀ c ∈ escapes, id c = c := fun _ _ => rfl
    have read := expand_written (fun _ _ => reference?_of_entity?) fixed cs
    rw [List.map_id] at read
    exact (if_neg free).trans read
  value cs := by
    have fixed : ∀ c ∈ escapes, blanked c = c := by simp [escapes, blanked, isSpace]
    exact expand_written (fun _ _ => reference?_of_entity?) fixed cs
  space cs h := by
    have free : ¬ [']', ']', '>'] <:+: cs := fun inside =>
      not_mem_of_isSpace h (c := '>') rfl (inside.subset (by simp))
    exact (if_neg free).trans (expand_of_no_reference (not_mem_of_isSpace h rfl))

theorem head_of_listed (h : Rendering.Listed name attributes) :
    conforming.Head name attributes := by
  have every : ∀ entry ∈ Rendering.vocabulary, isName entry.1.toList = true ∧
      (∀ key ∈ entry.2, isName key.toList = true) ∧ entry.2.Nodup := by decide +kernel
  obtain ⟨named, keys, distinct⟩ := every _ h
  exact ⟨named, fun a ha => keys _ (List.mem_map_of_mem ha), decide_eq_true distinct⟩

theorem head_mapValues (g : List Char → List Char) (name : String)
    (attributes : List (String × String)) (h : conforming.Head name attributes) :
    conforming.Head name (Element.mapValues g attributes) := by
  obtain ⟨named, keys, distinct⟩ := h
  refine ⟨named, ?_, by rwa [Element.keys_mapValues]⟩
  exact List.forall_mem_map.mpr keys

theorem parse_toText (h : e.Regular conforming.Head) : parse (toText e) =
    if Legal (toText e).toList then
      some (e.mapTexts lineEnds (List.map blanked ∘ lineEnds)) else none := by
  have named : e.Regular Named := h.imp fun _ _ ⟨name, keys, _⟩ => ⟨name, keys⟩
  have changed : lineEnds (toText e).toList =
      (toText (e.mapTexts lineEnds lineEnds)).toList := by
    have whole := lineEnds_chars named 0 []
    rwa [List.append_nil, lineEnds, List.append_nil, ← toList_toText, ← toList_toText] at whole
  have regular := h.mapTexts (f := lineEnds) (head_mapValues lineEnds)
  rw [parse, changed, read_toText conforming_takes regular, Element.mapTexts_mapTexts]
  rfl

theorem named_of_head (h : e.Regular conforming.Head) : e.Regular Named :=
  h.imp fun _ _ ⟨name, keys, _⟩ => ⟨name, keys⟩

theorem regular_element (p : Procedure) : p.element.Regular conforming.Head :=
  p.regular_element.imp fun _ _ => head_of_listed

theorem parse_xml (p : Procedure) : parse p.xml = if Legal p.xml.toList then
    some (p.element.mapTexts lineEnds (List.map blanked ∘ lineEnds)) else none :=
  parse_toText (regular_element p)

theorem isChar_of_printable (h : 0x20 ≤ c.toNat ∧ c.toNat ≤ 0x7E) : isChar c = true := by
  simp [isChar, Text.inRanges]
  omega

theorem legal_xml_iff (p : Procedure) :
    Legal p.xml.toList ↔ ∀ t ∈ p.texts ++ p.values, Legal t.toList := by
  have machine : ∀ s, Printable s → Legal s.toList := fun s printable c hc =>
    isChar_of_printable (printable c hc)
  rw [Procedure.xml, toList_toText, legal_chars (named_of_head (regular_element p)), LegalTexts,
    Rendering.holds_element ⟨machine, machine⟩, List.forall_mem_append]

theorem not_mem_blanked (hc : c ∈ ['\t', '\n', '\r']) (cs : List Char) : c ∉ cs.map blanked := by
  intro hmem
  obtain ⟨x, _, rfl⟩ := List.mem_map.mp hmem
  unfold blanked at hc
  split_ifs at hc with space
  · exact absurd hc (by decide)
  · simp only [List.mem_cons, List.not_mem_nil, or_false] at hc
    rcases hc with rfl | rfl | rfl <;> exact space rfl

theorem blanked_lineEnds_eq_self_iff : (lineEnds cs).map blanked = cs ↔
    ∀ c ∈ ['\t', '\n', '\r'], c ∉ cs := by
  refine ⟨fun same c hc => same ▸ not_mem_blanked hc _, fun free => ?_⟩
  rw [lineEnds_eq_self_iff.mpr (free '\r' (by simp)), ← List.map_id cs, List.map_map]
  refine List.map_congr_left fun x hx => ?_
  have other : x ≠ '\t' ∧ x ≠ '\n' ∧ x ≠ '\r' := by
    refine ⟨?_, ?_, ?_⟩ <;> rintro rfl <;> exact free _ (by simp) hx
  by_cases blank : x = ' '
  · subst blank
    rfl
  · simp [blanked, isSpace, other, blank]

theorem kept_iff (p : Procedure) :
    p.element.mapTexts lineEnds (List.map blanked ∘ lineEnds) = p.element ↔
      (∀ t ∈ p.texts, '\r' ∉ t.toList) ∧
        ∀ v ∈ p.values, ∀ c ∈ ['\t', '\n', '\r'], c ∉ v.toList := by
  have absent : ∀ s, Printable s → ∀ c ∈ ['\t', '\n', '\r'], c ∉ s.toList := by
    intro s printable c hc hmem
    have visible := (printable c hmem).1
    simp only [List.mem_cons, List.not_mem_nil, or_false] at hc
    rcases hc with rfl | rfl | rfl <;> exact absurd visible (by decide)
  have machine : Rendering.Machine ('\r' ∉ ·.toList)
      (fun v => ∀ c ∈ ['\t', '\n', '\r'], c ∉ v.toList) :=
    ⟨fun s printable => absent s printable '\r' (by simp), absent⟩
  simp only [Element.mapTexts_eq_self_iff, Function.comp_apply, lineEnds_eq_self_iff,
    blanked_lineEnds_eq_self_iff, Rendering.holds_element machine]

/-- A procedure document is well-formed just when all characters of its authored texts and values
are legal. All of it comes back just when there is also no return in a text, and no return, line
feed or tabulator in a value. -/
theorem conforming_reader_recovers (p : Procedure) :
    (parse p.xml ≠ none ↔ ∀ t ∈ p.texts ++ p.values, Legal t.toList) ∧
      (parse p.xml = some p.element ↔ (∀ t ∈ p.texts ++ p.values, Legal t.toList) ∧
        (∀ t ∈ p.texts, '\r' ∉ t.toList) ∧
        ∀ v ∈ p.values, ∀ c ∈ ['\t', '\n', '\r'], c ∉ v.toList) := by
  rw [← legal_xml_iff, ← kept_iff, parse_xml]
  by_cases legal : Legal p.xml.toList <;> simp [legal]

def titleOf (e : Element) : Option String := (e.child? "Title").map (·.content)

theorem titleOf_mapTexts (f g : List Char → List Char) (p : Procedure) :
    titleOf (p.element.mapTexts f g) = some (Element.mapText f p.title) := by
  simp [titleOf, Procedure.element, Element.mapTexts, Element.mapTextsAll, Element.child?,
    Element.ofText, Element.content]

def titled (title : String) : Workflow where
  title
  steps := []

def numbered : Settings where
  supply := Supply.sequential "id"
  modified := ⟨2024, 3, 1, 9, 30, 15, 123456000⟩

theorem exists_compiled {α : Type} (w : Workflow) (f : Procedure → α) {x : α}
    (h : (w.compile numbered).toOption.map f = some x) :
    ∃ p, w.compile numbered = .ok p ∧ f p = x := by
  cases compiled : w.compile numbered with
  | error e => simp [compiled, Except.toOption] at h
  | ok p =>
    rw [compiled] at h
    exact ⟨p, rfl, Option.some.inj h⟩

theorem titles_lost :
    (∃ p, (titled "Seal\x01check").compile numbered = .ok p ∧ parse p.xml = none) ∧
      ∃ p, (titled "Seal\rcheck").compile numbered = .ok p ∧ p.title = "Seal\rcheck" ∧
        (parse p.xml).bind titleOf = some "Seal\ncheck" := by
  constructor
  · obtain ⟨p, compiled, title⟩ := exists_compiled (titled "Seal\x01check") (·.title)
      (by decide +kernel : _ = some "Seal\x01check")
    have broken : ¬ Legal p.xml.toList := fun legal => by
      have inside : p.title ∈ p.texts ++ p.values := by simp [Procedure.texts]
      have fine := (legal_xml_iff p).mp legal p.title inside
      rw [title] at fine
      revert fine
      decide
    exact ⟨p, compiled, (parse_xml p).trans (if_neg broken)⟩
  · obtain ⟨p, compiled, contents⟩ := exists_compiled (titled "Seal\rcheck")
      (fun p => (p.title, p.texts ++ p.values)) (by decide +kernel : _ = some ("Seal\rcheck",
        ["id-0004", "Seal\rcheck", "Generated workflow", "Start", "", "End", "",
          "id-0001", "", "id-0003", "id-0001", "id-0002", "id-0002"]))
    obtain ⟨title, all⟩ := Prod.mk.inj contents
    have legal : Legal p.xml.toList := by
      rw [legal_xml_iff, all]
      decide
    refine ⟨p, compiled, title, ?_⟩
    rw [parse_xml, if_pos legal, Option.bind_some, titleOf_mapTexts, title]
    decide

end FieldProcedure.Markup.Reader
