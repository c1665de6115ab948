import FieldProcedure.Markup.Xml
import FieldProcedure.Text.Split
import FieldProcedure.Proofs.Elements
import Mathlib.Data.List.TakeWhile
import Mathlib.Tactic.SplitIfs

/-! A reader of markup, beside the writer. A document is cut where tags begin; every part is a tag
and the text that follows it, and elements stay open until their closing tag comes. How names, texts
and values are taken is left to a dialect. What the writer writes is read as the tree that was
written, up to what the dialect makes of its texts and values. -/
namespace FieldProcedure.Markup

namespace Reader

def isSpace (c : Char) : Bool := c = ' ' || c = '\t' || c = '\n' || c = '\r'

/-- What a reader makes of names, of the attribute names of one element, of a text between tags and
of a value between quotes, all as they are written. -/
structure Dialect where
  isName : List Char → Bool
  allowsKeys : List String → Bool
  text? : List Char → Option (List Char)
  value? : List Char → Option (List Char)

def endsName (c : Char) : Bool := isSpace c || c = '/' || c = '>' || c = '='

inductive Tag
  | opening (name : String) (attributes : List (String × String))
  | single (name : String) (attributes : List (String × String))
  | closing (name : String)
deriving DecidableEq, Repr

variable (d : Dialect)

def name? (cs : List Char) : Option (String × List Char) :=
  let name := cs.takeWhile (!endsName ·)
  if d.isName name then some (String.ofList name, cs.dropWhile (!endsName ·)) else none

def quoted? : List Char → Option (String × List Char)
  | [] => none
  | quote :: cs =>
    if quote ≠ '"' ∧ quote ≠ '\'' then none
    else match cs.dropWhile (· ≠ quote) with
      | [] => none
      | _ :: rest => (d.value? (cs.takeWhile (· ≠ quote))).map fun v => (String.ofList v, rest)

def assigned? (cs : List Char) : Option (String × List Char) :=
  match cs.dropWhile isSpace with
  | '=' :: rest => quoted? d (rest.dropWhile isSpace)
  | _ => none

def attributes? : Nat → List Char → Option (List (String × String) × List Char)
  | 0, _ => none
  | n + 1, cs =>
    match cs.dropWhile isSpace with
    | [] => none
    | c :: rest =>
      if c = '/' ∨ c = '>' then some ([], c :: rest)
      else if cs.head?.any isSpace then do
        let (key, cs) ← name? d (c :: rest)
        let (value, cs) ← assigned? d cs
        let (more, cs) ← attributes? n cs
        pure ((key, value) :: more, cs)
      else none

def tag? : List Char → Option (Tag × List Char)
  | '/' :: cs => do
    let (name, cs) ← name? d cs
    match cs.dropWhile isSpace with
    | '>' :: after => some (.closing name, after)
    | _ => none
  | cs => do
    let (name, cs) ← name? d cs
    let (attributes, cs) ← attributes? d cs.length cs
    if d.allowsKeys (attributes.map (·.1)) then
      match cs with
      | '>' :: after => some (.opening name attributes, after)
      | '/' :: '>' :: after => some (.single name attributes, after)
      | _ => none
    else none

structure Pending where
  name : String
  attributes : List (String × String) := []
  text : List Char := []
  children : List Element := []

/-- White space among child elements is no text of its own. -/
def Pending.element (p : Pending) : Element where
  name := p.name
  attributes := p.attributes
  text :=
    if p.children.isEmpty || !p.text.all isSpace then some (String.ofList p.text) else none
  children := p.children

/-- The element at hand, and those around it from the inside out. The outermost one stands for the
document. -/
structure State where
  outer : List Pending
  here : Pending

namespace State

variable (s : State)

def push (child : Element) : State :=
  { s with here := { s.here with children := s.here.children ++ [child] } }

def hear (cs : List Char) : Option State :=
  let text? := if s.outer.isEmpty then (if cs.all isSpace then some cs else none) else d.text? cs
  text?.map fun text => { s with here := { s.here with text := s.here.text ++ text } }

def meet : Tag → Option State
  | .opening name attributes => some ⟨s.here :: s.outer, { name, attributes }⟩
  | .single name attributes => some (s.push { name, attributes })
  | .closing name =>
    match s.outer with
    | [] => none
    | up :: outer => if name = s.here.name then some (push ⟨outer, up⟩ s.here.element) else none

end State

def follow (s : State) : List (List Char) → Option State
  | [] => some s
  | part :: parts => do
    let (tag, text) ← tag? d part
    let s ← s.meet tag
    let s ← s.hear d text
    follow s parts

def resume (s : State) (cs : List Char) : Option State :=
  match Text.splitAll '<' cs with
  | [] => none
  | text :: parts => (s.hear d text).bind fun s => follow d s parts

def read (cs : List Char) : Option Element :=
  match resume d ⟨[], { name := "" }⟩ cs with
  | some ⟨[], document⟩ =>
    match document.children with
    | [root] => some root
    | _ => none
  | _ => none

end Reader

namespace Xml

def written (cs : List Char) : List Char := cs.flatMap fun c => (escapedChar c).toList

theorem toList_escaped (s : String) : (escaped s).toList = written s.toList := by
  rw [escaped, String.toList_join, List.flatMap_map]
  rfl

theorem written_cons (c : Char) (cs : List Char) :
    written (c :: cs) = (escapedChar c).toList ++ written cs := List.flatMap_cons

theorem not_mem_written {cs : List Char} {c : Char} (hc : c ∈ ['<', '>', '"', '\'']) :
    c ∉ written cs := by
  intro hmem
  obtain ⟨x, _, hx⟩ := List.mem_flatMap.mp hmem
  unfold escapedChar at hx
  split_ifs at hx with h₁ h₂ h₃ h₄ h₅
  case neg =>
    obtain rfl : c = x := by simpa [Char.toString] using hx
    simp [h₁, h₂, h₄, h₅] at hc
  all_goals
    simp only [List.mem_cons, List.not_mem_nil, or_false] at hc
    rcases hc with rfl | rfl | rfl | rfl <;> revert hx <;> decide

def attributeChars (entry : String × String) : List Char :=
  ' ' :: (entry.1.toList ++ '=' :: '"' :: (written entry.2.toList ++ ['"']))

def headChars (name : String) (attributes : List (String × String)) : List Char :=
  name.toList ++ attributes.flatMap attributeChars

theorem toList_attributeText (entry : String × String) :
    (attributeText entry).toList = attributeChars entry := by
  simp [attributeText, attributeChars, toList_escaped]

theorem toList_heading (name : String) (attributes : List (String × String)) :
    (heading name attributes).toList = headChars name attributes := by
  simp [heading, headChars, String.toList_join, List.flatMap_map, toList_attributeText]

def indentChars (depth : Nat) : List Char := '\n' :: List.replicate (2 * depth) ' '

theorem toList_indent (depth : Nat) : (indent depth).flatMap String.toList = indentChars depth := by
  simp [indent, indentChars]

def chars (depth : Nat) (e : Element) : List Char := (pieces depth false e).flatMap String.toList

theorem pieces_broken (depth : Nat) (e : Element) :
    pieces depth true e = indent depth ++ pieces depth false e := by
  obtain ⟨name, attributes, _ | text, _ | ⟨first, rest⟩⟩ := e <;>
    simp only [pieces, if_true, Bool.false_eq_true, if_false, List.append_assoc, List.nil_append]

theorem chars_bare (depth : Nat) (name : String) (attributes : List (String × String)) :
    chars depth ⟨name, attributes, none, []⟩ =
      '<' :: (headChars name attributes ++ ['/', '>']) := by
  simp [chars, pieces, toList_heading]

theorem chars_leaf (depth : Nat) (name : String) (attributes : List (String × String))
    (text : String) : chars depth ⟨name, attributes, some text, []⟩ =
      '<' :: (headChars name attributes ++ ['>']) ++
        (written text.toList ++ '<' :: ('/' :: (name.toList ++ ['>']))) := by
  simp [chars, pieces, toList_heading, toList_escaped]

def lines (depth : Nat) (es : List Element) : List Char :=
  es.flatMap fun e => indentChars depth ++ chars depth e

theorem toList_piecesAll (depth : Nat) (es : List Element) :
    (piecesAll depth true es).flatMap String.toList = lines depth es := by
  induction es with
  | nil => rfl
  | cons e rest ih =>
    rw [piecesAll, List.flatMap_append, ih, pieces_broken, List.flatMap_append, toList_indent]
    rfl

theorem chars_branch (depth : Nat) (name : String) (attributes : List (String × String))
    (first : Element) (rest : List Element) :
    chars depth ⟨name, attributes, none, first :: rest⟩ =
      '<' :: (headChars name attributes ++ ['>']) ++
        (lines (depth + 1) (first :: rest) ++
          (indentChars depth ++ '<' :: ('/' :: (name.toList ++ ['>'])))) := by
  simp [chars, pieces, toList_heading, toList_piecesAll, toList_indent]

theorem toList_toText (e : Element) : (toText e).toList = chars 0 e := String.toList_join

end Xml

namespace Reader
open Xml

variable {d : Dialect} {f g : List Char → List Char} {s : State} {e : Element} {name : String}
  {attributes : List (String × String)}

theorem splitAll_ne_nil (mark : Char) (cs : List Char) : Text.splitAll mark cs ≠ [] := by
  cases cs with
  | nil => simp [Text.splitAll]
  | cons c cs =>
    rw [Text.splitAll]
    split
    · simp
    · split <;> simp

theorem splitAll_mark (mark : Char) (cs : List Char) :
    Text.splitAll mark (mark :: cs) = [] :: Text.splitAll mark cs := by
  simp [Text.splitAll]

theorem splitAll_append {mark : Char} {before cs part : List Char} {parts : List (List Char)}
    (free : mark ∉ before) (h : Text.splitAll mark cs = part :: parts) :
    Text.splitAll mark (before ++ cs) = (before ++ part) :: parts := by
  induction before with
  | nil => exact h
  | cons c rest ih =>
    rw [List.mem_cons, not_or] at free
    obtain ⟨here, later⟩ := free
    rw [List.cons_append, Text.splitAll, ih later]
    simp [Ne.symm here]

structure Dialect.Takes (d : Dialect) (f g : List Char → List Char) : Prop where
  name : ∀ cs, d.isName cs = true → cs ≠ [] ∧ ∀ c ∈ cs, endsName c = false ∧ c ≠ '<'
  text : ∀ cs, d.text? (written cs) = some (f cs)
  value : ∀ cs, d.value? (written cs) = some (g cs)
  space : ∀ cs, cs.all isSpace = true → d.text? cs = some cs

def Dialect.Head (d : Dialect) (name : String) (attributes : List (String × String)) : Prop :=
  d.isName name.toList = true ∧ (∀ a ∈ attributes, d.isName a.1.toList = true) ∧
    d.allowsKeys (attributes.map (·.1)) = true

theorem hear_space (takes : d.Takes f g) (s : State) {cs : List Char}
    (space : cs.all isSpace = true) : s.hear d cs =
      some { s with here := { s.here with text := s.here.text ++ cs } } := by
  simp [State.hear, space, takes.space cs space]

theorem hear_nil (takes : d.Takes f g) (s : State) : s.hear d [] = some s := by
  rw [hear_space takes s rfl, List.append_nil]

theorem resume_text (takes : d.Takes f g) (s : State) {text : List Char} (free : '<' ∉ text)
    (cs : List Char) :
    resume d s (text ++ '<' :: cs) = (s.hear d text).bind fun s => resume d s ('<' :: cs) := by
  simp only [resume, splitAll_append free (splitAll_mark '<' cs), splitAll_mark, List.append_nil,
    hear_nil takes, Option.bind_some]

theorem resume_tag (takes : d.Takes f g) (s : State) {body : List Char} {tag : Tag}
    (free : '<' ∉ body) (h : ∀ text, tag? d (body ++ text) = some (tag, text)) (cs : List Char) :
    resume d s ('<' :: (body ++ cs)) = (s.meet tag).bind fun s => resume d s cs := by
  obtain ⟨part, parts, split⟩ := List.exists_cons_of_ne_nil (splitAll_ne_nil '<' cs)
  simp only [resume, splitAll_mark, splitAll_append free split, split, hear_nil takes,
    Option.bind_some, follow, h, Option.bind_eq_bind]

theorem name?_append (takes : d.Takes f g) (hname : d.isName name.toList = true) {c : Char}
    (hc : endsName c = true) (rest : List Char) :
    name? d (name.toList ++ c :: rest) = some (name, c :: rest) := by
  have inside : ∀ x ∈ name.toList, (!endsName x) = true := fun x hx => by
    rw [((takes.name _ hname).2 x hx).1]
    rfl
  simp only [name?, List.takeWhile_append_of_pos inside, List.dropWhile_append_of_pos inside,
    List.takeWhile_cons_of_neg (p := (!endsName ·)) (a := c) (by simp [hc]),
    List.dropWhile_cons_of_neg (p := (!endsName ·)) (a := c) (by simp [hc]), List.append_nil,
    hname, if_true, String.ofList_toList]

theorem assigned?_append (takes : d.Takes f g) (value : String) (rest : List Char) :
    assigned? d ('=' :: '"' :: (written value.toList ++ '"' :: rest)) =
      some (Element.mapText g value, rest) := by
  have inside : ∀ x ∈ written value.toList, (!decide (x = '"')) = true := fun x hx => by
    have other : x ≠ '"' := fun same => not_mem_written (by simp) (same ▸ hx)
    simp [other]
  have equals : isSpace '=' = false := rfl
  have quote : isSpace '"' = false := rfl
  simp [assigned?, quoted?, equals, quote, List.takeWhile_append_of_pos inside,
    List.dropWhile_append_of_pos inside, takes.value, Element.mapText]

theorem attributes?_cons (takes : d.Takes f g) {key : String}
    (hkey : d.isName key.toList = true) (value : String) (n : Nat) (cs : List Char) :
    attributes? d (n + 1) (attributeChars (key, value) ++ cs) =
      (attributes? d n cs).map fun (more, cs) => ((key, Element.mapText g value) :: more, cs) := by
  let after := '=' :: '"' :: (written value.toList ++ '"' :: cs)
  obtain ⟨nonempty, inside⟩ := takes.name _ hkey
  obtain ⟨x, xs, hx⟩ := List.exists_cons_of_ne_nil nonempty
  -- The name begins with neither white space nor the end of the tag.
  have first : endsName x = false := (inside x (by rw [hx]; exact List.mem_cons_self)).1
  have begins : isSpace x = false ∧ ¬ (x = '/' ∨ x = '>') := by
    simp only [endsName, Bool.or_eq_false_iff, decide_eq_false_iff_not] at first
    exact ⟨first.1.1.1, not_or.mpr ⟨first.1.1.2, first.1.2⟩⟩
  have shape : attributeChars (key, value) ++ cs = ' ' :: x :: (xs ++ after) := by
    simp [attributeChars, hx, after]
  have named : name? d (x :: (xs ++ after)) = some (key, after) := by
    have whole := name?_append takes hkey (c := '=') rfl
      ('"' :: (written value.toList ++ '"' :: cs))
    rwa [hx, List.cons_append] at whole
  have assigned : assigned? d after = some (Element.mapText g value, cs) :=
    assigned?_append takes value cs
  have blank : isSpace ' ' = true := rfl
  rw [shape, attributes?]
  simp only [List.dropWhile_cons, blank, begins, if_true, Bool.false_eq_true, if_false, named,
    assigned, List.head?_cons, Option.any_some, Option.bind_eq_bind, Option.bind_some]
  cases attributes? d n cs <;> rfl

theorem attributes?_append (takes : d.Takes f g) {n : Nat} (enough : attributes.length < n)
    (names : ∀ a ∈ attributes, d.isName a.1.toList = true) {c : Char} (hc : c = '/' ∨ c = '>')
    (rest : List Char) : attributes? d n (attributes.flatMap attributeChars ++ c :: rest) =
      some (Element.mapValues g attributes, c :: rest) := by
  induction attributes generalizing n with
  | nil =>
    obtain ⟨n, rfl⟩ := Nat.exists_eq_succ_of_ne_zero (Nat.ne_zero_of_lt enough)
    have stays : isSpace c = false := by rcases hc with rfl | rfl <;> rfl
    simp [attributes?, stays, hc, Element.mapValues]
  | cons entry more ih =>
    obtain ⟨n, rfl⟩ := Nat.exists_eq_succ_of_ne_zero (Nat.ne_zero_of_lt enough)
    obtain ⟨here, later⟩ := List.forall_mem_cons.mp names
    rw [List.flatMap_cons, List.append_assoc, attributes?_cons takes here,
      ih (Nat.lt_of_succ_lt_succ enough) later]
    rfl

theorem length_le_attributes (attributes : List (String × String)) :
    attributes.length ≤ (attributes.flatMap attributeChars).length := by
  induction attributes with
  | nil => exact Nat.le_refl 0
  | cons entry more ih =>
    rw [List.flatMap_cons, List.length_append, List.length_cons, attributeChars, List.length_cons]
    omega

theorem head_append (takes : d.Takes f g) (head : d.Head name attributes) {c : Char}
    (hc : c = '/' ∨ c = '>') (rest : List Char) :
    ∃ cs, name? d (headChars name attributes ++ c :: rest) = some (name, cs) ∧
      attributes? d cs.length cs = some (Element.mapValues g attributes, c :: rest) := by
  obtain ⟨hname, names, _⟩ := head
  refine ⟨attributes.flatMap attributeChars ++ c :: rest, ?_, ?_⟩
  · rw [headChars, List.append_assoc]
    cases attributes with
    | nil => exact name?_append takes hname (by rcases hc with rfl | rfl <;> rfl) rest
    | cons entry more => exact name?_append takes hname (c := ' ') rfl _
  · refine attributes?_append takes ?_ names hc rest
    have fewer := length_le_attributes attributes
    rw [List.length_append, List.length_cons]
    omega

theorem name_ne_slash (takes : d.Takes f g) (hname : d.isName name.toList = true) :
    ∀ cs, name.toList ≠ '/' :: cs := by
  intro cs hcs
  have inside := (takes.name _ hname).2 '/' (by rw [hcs]; exact List.mem_cons_self)
  exact absurd inside.1 (by decide)

theorem headChars_ne_slash (takes : d.Takes f g) (head : d.Head name attributes)
    (more cs : List Char) : headChars name attributes ++ more ≠ '/' :: cs := by
  obtain ⟨x, xs, hx⟩ := List.exists_cons_of_ne_nil (takes.name _ head.1).1
  have other := name_ne_slash takes head.1 xs
  rw [hx] at other
  rw [headChars, hx]
  rintro ⟨⟩
  exact other rfl

theorem tag?_opening (takes : d.Takes f g) (head : d.Head name attributes) (text : List Char) :
    tag? d (headChars name attributes ++ ['>'] ++ text) =
      some (.opening name (Element.mapValues g attributes), text) := by
  obtain ⟨cs, named, listed⟩ := head_append takes head (.inr rfl) text
  rw [List.append_assoc, List.singleton_append]
  simp [tag?, headChars_ne_slash takes head, named, listed, Element.keys_mapValues, head.2.2]

theorem tag?_single (takes : d.Takes f g) (head : d.Head name attributes) (text : List Char) :
    tag? d (headChars name attributes ++ ['/', '>'] ++ text) =
      some (.single name (Element.mapValues g attributes), text) := by
  obtain ⟨cs, named, listed⟩ := head_append takes head (.inl rfl) ('>' :: text)
  rw [List.append_assoc, List.cons_append, List.singleton_append]
  simp [tag?, headChars_ne_slash takes head, named, listed, Element.keys_mapValues, head.2.2]

theorem tag?_closing (takes : d.Takes f g) (hname : d.isName name.toList = true)
    (text : List Char) : tag? d ('/' :: (name.toList ++ ['>']) ++ text) =
      some (.closing name, text) := by
  have named := name?_append takes hname (c := '>') rfl text
  have stays : isSpace '>' = false := rfl
  simp [tag?, named, stays]

theorem not_mem_headChars (takes : d.Takes f g) (head : d.Head name attributes) :
    '<' ∉ headChars name attributes := by
  have names : ∀ n : String, d.isName n.toList = true → '<' ∉ n.toList := fun n hn hmem =>
    ((takes.name _ hn).2 '<' hmem).2 rfl
  simp only [headChars, List.mem_append, List.mem_flatMap, not_or, not_exists, not_and]
  refine ⟨names _ head.1, fun entry hentry => ?_⟩
  have key := names _ (head.2.1 entry hentry)
  have value : '<' ∉ written entry.2.toList := not_mem_written (by simp)
  simp [attributeChars, key, value]

theorem not_mem_closing (takes : d.Takes f g) (hname : d.isName name.toList = true) :
    '<' ∉ '/' :: (name.toList ++ ['>']) := by
  have inside : '<' ∉ name.toList := fun hmem => ((takes.name _ hname).2 '<' hmem).2 rfl
  simp [inside]

theorem resume_opening (takes : d.Takes f g) (head : d.Head name attributes) (s : State)
    (cs : List Char) : resume d s ('<' :: (headChars name attributes ++ ['>']) ++ cs) =
      resume d ⟨s.here :: s.outer, { name, attributes := Element.mapValues g attributes }⟩ cs := by
  have free := not_mem_headChars takes head
  rw [List.cons_append, resume_tag takes s (by simp [free]) (tag?_opening takes head)]
  rfl

theorem resume_closing (takes : d.Takes f g) (hname : d.isName name.toList = true) (s : State)
    {p : Pending} (hp : p.name = name) (cs : List Char) :
    resume d ⟨s.here :: s.outer, p⟩ ('<' :: ('/' :: (name.toList ++ ['>'])) ++ cs) =
      resume d (s.push p.element) cs := by
  rw [List.cons_append, resume_tag takes _ (not_mem_closing takes hname) (tag?_closing takes hname)]
  simp [State.meet, hp, State.push]

theorem chars_eq_cons (h : e.Regular d.Head) (depth : Nat) : ∃ cs, chars depth e = '<' :: cs := by
  cases h with
  | bare => exact ⟨_, chars_bare ..⟩
  | leaf => exact ⟨_, chars_leaf ..⟩
  | branch => exact ⟨_, chars_branch ..⟩

/-- Reading an element adds it to the children of the one at hand, whatever comes next. -/
def ReadsBack (d : Dialect) (f g : List Char → List Char) (e : Element) : Prop :=
  ∀ depth s cs, resume d s (chars depth e ++ cs) = resume d (s.push (e.mapTexts f g)) cs

theorem isSpace_indentChars (depth : Nat) : (indentChars depth).all isSpace = true := by
  simp [indentChars, isSpace]

theorem indentChars_free (depth : Nat) : '<' ∉ indentChars depth := by
  simp [indentChars, List.mem_replicate]

theorem resume_lines (takes : d.Takes f g) {es : List Element}
    (regular : ∀ e ∈ es, e.Regular d.Head) (each : ∀ e ∈ es, ReadsBack d f g e) (depth : Nat)
    (s : State) (cs : List Char) : ∃ space, space.all isSpace = true ∧
      resume d s (lines depth es ++ cs) = resume d { s with here := { s.here with
        text := s.here.text ++ space
        children := s.here.children ++ es.map (Element.mapTexts f g) } } cs := by
  induction es generalizing s with
  | nil => exact ⟨[], rfl, by simp [lines]⟩
  | cons e rest ih =>
    have indent := isSpace_indentChars depth
    obtain ⟨body, hbody⟩ := chars_eq_cons (regular e List.mem_cons_self) depth
    let s' : State := { s with here := { s.here with text := s.here.text ++ indentChars depth } }
    obtain ⟨space, blank, later⟩ := ih (fun t ht => regular t (List.mem_cons_of_mem _ ht))
      (fun t ht => each t (List.mem_cons_of_mem _ ht)) (s'.push (e.mapTexts f g))
    refine ⟨indentChars depth ++ space, by rw [List.all_append, indent, blank]; rfl, ?_⟩
    calc resume d s (lines depth (e :: rest) ++ cs)
        = resume d s (indentChars depth ++ '<' :: (body ++ (lines depth rest ++ cs))) := by
          simp [lines, hbody]
      _ = resume d s' (chars depth e ++ (lines depth rest ++ cs)) := by
          rw [resume_text takes s (indentChars_free depth), hear_space takes s indent, hbody]
          rfl
      _ = resume d (s'.push (e.mapTexts f g)) (lines depth rest ++ cs) :=
          each e List.mem_cons_self depth s' _
      _ = _ := by
          rw [later]
          simp [s', State.push]

theorem readsBack (takes : d.Takes f g) (h : e.Regular d.Head) : ReadsBack d f g e := by
  induction h with
  | bare head =>
    intro depth s cs
    have free := not_mem_headChars takes head
    rw [chars_bare, List.cons_append, resume_tag takes s (by simp [free]) (tag?_single takes head)]
    rfl
  | @leaf name attributes text head =>
    intro depth s cs
    have free : '<' ∉ written text.toList := not_mem_written (by simp)
    rw [chars_leaf, List.append_assoc, resume_opening takes head, List.append_assoc,
      List.cons_append, resume_text takes _ free]
    -- The text goes to the element that has just been opened.
    have heard (p : Pending) : State.hear d ⟨s.here :: s.outer, p⟩ (written text.toList) =
        some ⟨s.here :: s.outer, { p with text := p.text ++ f text.toList }⟩ := by
      simp [State.hear, takes.text]
    rw [heard, Option.bind_some]
    exact resume_closing takes head.1 s rfl cs
  | @branch name attributes first rest head regular each =>
    intro depth s cs
    rw [chars_branch, List.append_assoc, resume_opening takes head, List.append_assoc]
    obtain ⟨space, blank, inside⟩ := resume_lines takes regular each (depth + 1)
      ⟨s.here :: s.outer, { name, attributes := Element.mapValues g attributes }⟩
      (indentChars depth ++ '<' :: ('/' :: (name.toList ++ ['>'])) ++ cs)
    rw [inside, List.append_assoc, List.cons_append, resume_text takes _ (indentChars_free depth),
      hear_space takes _ (isSpace_indentChars depth), Option.bind_some]
    refine (resume_closing takes head.1 s rfl cs).trans ?_
    -- All that was heard among the children is white space.
    have text : (space ++ indentChars depth).all isSpace = true := by
      rw [List.all_append, blank, isSpace_indentChars]
      rfl
    simp [Pending.element, Element.mapTexts, Element.mapTextsAll_eq, text]

theorem read_toText (takes : d.Takes f g) (h : e.Regular d.Head) :
    read d (toText e).toList = some (e.mapTexts f g) := by
  have whole := readsBack takes h 0 ⟨[], { name := "" }⟩ []
  rw [List.append_nil] at whole
  have finished (s : State) : resume d s [] = some s := by
    simp [resume, Text.splitAll, hear_nil takes, follow]
  rw [finished] at whole
  rw [read, toList_toText, whole]
  rfl

end Reader
end FieldProcedure.Markup
