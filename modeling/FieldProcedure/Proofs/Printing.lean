import FieldProcedure.Procedure
import FieldProcedure.Proofs.Elements
import FieldProcedure.Proofs.Recovery
import FieldProcedure.Proofs.Unambiguous

/-! Printed JSON. A value whose scalars are texts is printed as a text that says just this value,
and the value that an element is turned into holds all of the element: whoever takes absent lists
for empty ones has it back. So the JSON form of a document determines its elements. -/
namespace FieldProcedure

namespace Text.Utf8

@[simp] theorem encode_append (s t : String) : encode (s ++ t) = encode s ++ encode t := by
  rw [encode, String.toList_append, List.flatMap_append]
  rfl

@[simp] theorem encode_ofList (cs : List Char) :
    encode (String.ofList cs) = cs.flatMap String.utf8EncodeChar := by
  rw [encode, String.toList_ofList]

theorem encode_join (ss : List String) : encode (String.join ss) = ss.flatMap encode := by
  rw [encode, String.toList_join, List.flatMap_assoc]
  rfl

end Text.Utf8

namespace Json

open Text

theorem exists_escaped (c : Char) :
    ∃ p : Piece, p.octets = Utf8.encode (escapedChar c) ∧ p.char = c := by
  have digits : ∀ n < 32, (Quad.ofNat n).octets = Utf8.encode "\\u00" ++
      [hexDigit (n / 16), hexDigit (n % 16)].flatMap String.utf8EncodeChar := by decide +kernel
  unfold escapedChar
  split_ifs with quote backslash newline carriage tab backspace feed low
  · exact ⟨.short '"' '"' (by decide), by decide, quote.symm⟩
  · exact ⟨.short '\\' '\\' (by decide), by decide, backslash.symm⟩
  · exact ⟨.short 'n' '\n' (by decide), by decide, newline.symm⟩
  · exact ⟨.short 'r' '\r' (by decide), by decide, carriage.symm⟩
  · exact ⟨.short 't' '\t' (by decide), by decide, tab.symm⟩
  · exact ⟨.short 'b' (Char.ofNat 8) (by decide), by decide, backspace.symm⟩
  · exact ⟨.short 'f' (Char.ofNat 12) (by decide), by decide, feed.symm⟩
  · have value : (Quad.ofNat c.toNat).value = c.toNat := Quad.value_ofNat (by omega)
    refine ⟨.unit (Quad.ofNat c.toNat) (by omega), ?_, ?_⟩
    · rw [Piece.octets, digits _ low, Utf8.encode_append, Utf8.encode_ofList [_, _]]
    · rw [Piece.char, value, Char.ofNat_toNat]
  · refine ⟨.plain c (by omega) ⟨quote, backslash⟩, ?_, rfl⟩
    simp [Piece.octets, Utf8.encode]

theorem exists_quoted (s : String) :
    ∃ l : Literal, l.octets = Utf8.encode (quoted s) ∧ l.text = s := by
  choose piece octets char using exists_escaped
  refine ⟨⟨s.toList.map piece⟩, ?_, ?_⟩
  · have mark : Utf8.encode "\"" = [octet '"'] := rfl
    simp only [Literal.octets, Literal.body, quoted, Utf8.encode_append, Utf8.encode_join, mark,
      List.flatMap_map, octets, List.cons_append, List.nil_append]
  · have same : Piece.char ∘ piece = id := funext char
    rw [Literal.text, List.map_map, same, List.map_id, String.ofList_toList]

def Gap.newLine (depth : Nat) : Gap where
  octets := Utf8.encode (Json.newLine depth)
  blank b hb := by
    rw [Json.newLine, Utf8.encode_append, Utf8.encode_ofList (List.replicate _ _),
      List.mem_append] at hb
    rcases hb with line | blank
    · obtain rfl := List.mem_singleton.mp line
      decide
    · obtain ⟨c, hc, hb⟩ := List.mem_flatMap.mp blank
      obtain rfl := List.eq_of_mem_replicate hc
      obtain rfl := List.mem_singleton.mp hb
      decide

def Gap.space : Gap := ⟨[32], List.forall_mem_singleton.mpr rfl⟩

def Printed (v : Json) (text : String) : Prop :=
  ∃ s : Script, s.octets = Utf8.encode text ∧ s.json? = some v

variable {depth : Nat}

/-- The lines of an array, up to its closing bracket. Every line but the last ends in a comma, which
in a script stands in front of the next item. -/
theorem exists_items (closing : Gap) {v : Json} {items : List Json} (first : Bool)
    (each : ∀ w ∈ v :: items, Printed w (w.pretty depth)) : ∃ its : Script.Items,
      its.octets first = Script.separator first ++ Utf8.encode (prettyItems depth (v :: items)) ++
        closing.octets ++ [octet ']'] ∧ its.json? = some (v :: items) := by
  induction items generalizing v first with
  | nil =>
    obtain ⟨s, octets, meaning⟩ := each v List.mem_cons_self
    refine ⟨.item (.newLine depth) s closing .closed, ?_, ?_⟩
    · simp [Script.Items.octets, prettyItems, octets, Gap.newLine]
    · simp [Script.Items.json?, meaning]
  | cons w rest ih =>
    obtain ⟨here, later⟩ := List.forall_mem_cons.mp each
    obtain ⟨s, octets, meaning⟩ := here
    obtain ⟨its, others, meanings⟩ := ih false later
    refine ⟨.item (.newLine depth) s .none its, ?_, ?_⟩
    · have comma : Utf8.encode "," = Script.separator false := rfl
      simp [Script.Items.octets, prettyItems, octets, Gap.newLine, Gap.none, others, comma]
    · simp [Script.Items.json?, meaning, meanings]

theorem exists_members (closing : Gap) {key : String} {v : Json} {members : List (String × Json)}
    (first : Bool) (each : ∀ m ∈ (key, v) :: members, Printed m.2 (m.2.pretty depth)) :
    ∃ ms : Script.Members, ms.octets first = Script.separator first ++
      Utf8.encode (prettyMembers depth ((key, v) :: members)) ++ closing.octets ++ [octet '\x7d'] ∧
        ms.json? = some ((key, v) :: members) := by
  have colon : Utf8.encode ": " = [octet ':', 32] := rfl
  obtain ⟨l, quoted, text⟩ := exists_quoted key
  induction members generalizing key v first l with
  | nil =>
    obtain ⟨s, octets, meaning⟩ := each _ List.mem_cons_self
    refine ⟨.member (.newLine depth) l .none .space s closing .closed, ?_, ?_⟩
    · simp [Script.Members.octets, prettyMembers, octets, quoted, colon, Gap.newLine, Gap.none,
        Gap.space]
    · simp [Script.Members.json?, meaning, text]
  | cons m rest ih =>
    obtain ⟨⟨s, octets, meaning⟩, later⟩ := List.forall_mem_cons.mp each
    obtain ⟨l', quoted', text'⟩ := exists_quoted m.1
    obtain ⟨ms, others, meanings⟩ := ih false later l' quoted' text'
    refine ⟨.member (.newLine depth) l .none .space s .none ms, ?_, ?_⟩
    · have comma : Utf8.encode "," = Script.separator false := rfl
      simp [Script.Members.octets, prettyMembers, octets, quoted, colon, Gap.newLine, Gap.none,
        Gap.space, others, comma]
    · simp [Script.Members.json?, meaning, text, meanings]

inductive Worded : Json → Prop
  | text (t : String) : Worded (.ofText t)
  | array {items : List Json} : (∀ v ∈ items, Worded v) → Worded (.array items)
  | object {members : List (String × Json)} : (∀ m ∈ members, Worded m.2) → Worded (.object members)

theorem Worded.printed {v : Json} (h : v.Worded) (depth : Nat) : Printed v (v.pretty depth) := by
  induction h generalizing depth with
  | text t =>
    obtain ⟨l, quoted, text⟩ := exists_quoted t
    exact ⟨.token (.text l), quoted, congrArg (fun t => some (ofText t)) text⟩
  | @array items _ each =>
    cases items with
    | nil => exact ⟨.array .none .closed, by rw [pretty]; rfl, rfl⟩
    | cons v items =>
      obtain ⟨its, octets, meanings⟩ :=
        exists_items (.newLine depth) true fun w hw => each w hw (depth + 1)
      refine ⟨.array .none its, ?_, ?_⟩
      · have opened : Utf8.encode "[" = [octet '['] := rfl
        have closed : Utf8.encode "]" = [octet ']'] := rfl
        simp [Script.octets, pretty, octets, Gap.none, Gap.newLine, Script.separator, opened,
          closed]
      · rw [Script.json?, meanings]
        rfl
  | @object members _ each =>
    cases members with
    | nil => exact ⟨.object .none .closed, by rw [pretty]; rfl, rfl⟩
    | cons m members =>
      obtain ⟨ms, octets, meanings⟩ :=
        exists_members (.newLine depth) true fun m hm => each m hm (depth + 1)
      refine ⟨.object .none ms, ?_, ?_⟩
      · have opened : Utf8.encode "\x7b" = [octet '\x7b'] := rfl
        have closed : Utf8.encode "\x7d" = [octet '\x7d'] := rfl
        simp [Script.octets, pretty, octets, Gap.none, Gap.newLine, Script.separator, opened,
          closed]
      · rw [Script.json?, meanings]
        rfl

end Json

namespace Markup.Element

open Json (Worded)

/-! ### Elements -/

def textOf? : Json → Option String
  | .scalar (.text t) => some t
  | _ => none

def attributeOf? : Json → Option (String × String)
  | .array [key, value] => do
    let k ← textOf? key
    let v ← textOf? value
    return (k, v)
  | _ => none

def attributesOf? : Option Json → Option (List (String × String))
  | none => some []
  | some (.array entries) => entries.mapM attributeOf?
  | _ => none

def contentOf? : Option Json → Option (Option String)
  | none => some none
  | some v => (textOf? v).map some

mutual
def ofJson? : Json → Option Element
  | .object members => do
    let name ← (members.lookup "name").bind textOf?
    let attributes ← attributesOf? (members.lookup "attributes")
    let text ← contentOf? (members.lookup "text")
    let children ← childrenIn? members
    return { name, attributes, text, children }
  | _ => none

def childrenIn? : List (String × Json) → Option (List Element)
  | [] => some []
  | (key, value) :: rest => if key = "children" then listOf? value else childrenIn? rest

def listOf? : Json → Option (List Element)
  | .array items => ofJsonAll? items
  | _ => none

def ofJsonAll? : List Json → Option (List Element)
  | [] => some []
  | v :: rest => do
    let e ← ofJson? v
    let others ← ofJsonAll? rest
    return e :: others
end

theorem childrenIn?_eq (members : List (String × Json)) :
    childrenIn? members = ((members.lookup "children").map listOf?).getD (some []) := by
  induction members with
  | nil => rfl
  | cons m rest ih =>
    rw [childrenIn?, List.lookup_cons]
    by_cases here : m.1 = "children"
    · simp [here]
    · have apart : ("children" == m.1) = false := by simpa using Ne.symm here
      simp [here, apart, ih]

def member (key : String) (value : Option Json) : List (String × Json) := value.toList.map (key, ·)

theorem lookup_member (key other : String) (value : Option Json) :
    (member other value).lookup key = if key = other then value else none := by
  cases value with
  | none => simp [member]
  | some v =>
    by_cases same : key = other
    · simp [member, same]
    · have apart : (key == other) = false := by simpa using same
      simp [member, List.lookup_cons, same, apart]

def attributesJson? (attributes : List (String × String)) : Option Json :=
  if attributes.isEmpty then none else some (.array (attributes.map attributeJson))

def childrenJson? (children : List Element) : Option Json :=
  if children.isEmpty then none else some (.array (toJsonAll children))

theorem toJson_eq (e : Element) : e.toJson = .object (member "name" (some (.ofText e.name)) ++
    member "attributes" (attributesJson? e.attributes) ++ member "text" (e.text.map .ofText) ++
      member "children" (childrenJson? e.children)) := by
  obtain ⟨name, attributes, text, children⟩ := e
  cases attributes <;> cases text <;> cases children <;> rfl

theorem attributesOf?_attributesJson? (attributes : List (String × String)) :
    attributesOf? (attributesJson? attributes) = some attributes := by
  have each : ∀ a, attributeOf? (attributeJson a) = some a := fun _ => rfl
  cases attributes with
  | nil => rfl
  | cons a rest => exact Rendering.mapM_map_eq_some each (a :: rest)

theorem contentOf?_ofText (text : Option String) :
    contentOf? (text.map Json.ofText) = some text := by
  cases text <;> rfl

theorem listOf?_childrenJson? {children : List Element}
    (inside : ofJsonAll? (toJsonAll children) = some children) :
    ((childrenJson? children).map listOf?).getD (some []) = some children := by
  cases children with
  | nil => rfl
  | cons c rest => exact inside

mutual
theorem ofJson?_toJson : ∀ e : Element, ofJson? e.toJson = some e
  | ⟨name, attributes, text, children⟩ => by
    have inside := listOf?_childrenJson? (ofJsonAll?_toJsonAll children)
    rw [toJson_eq, ofJson?]
    simp [childrenIn?_eq, List.lookup_append, lookup_member, attributesOf?_attributesJson?,
      contentOf?_ofText, inside, Json.ofText, textOf?]
theorem ofJsonAll?_toJsonAll : ∀ es : List Element, ofJsonAll? (toJsonAll es) = some es
  | [] => rfl
  | e :: rest => by simp [toJsonAll, ofJsonAll?, ofJson?_toJson e, ofJsonAll?_toJsonAll rest]
end

theorem toJsonAll_eq (es : List Element) : toJsonAll es = es.map toJson := by
  induction es with
  | nil => rfl
  | cons e rest ih => rw [toJsonAll, ih, List.map_cons]

theorem worded_member {key : String} {value : Option Json} (h : ∀ v ∈ value, v.Worded) :
    ∀ m ∈ member key value, m.2.Worded := by
  simpa [member] using h

theorem toJson_worded (e : Element) : e.toJson.Worded := by
  induction e using treeInduction with
  | h e ih =>
    have entry : ∀ a, (attributeJson a).Worded := fun a =>
      .array (List.forall_mem_cons.mpr ⟨.text a.1, List.forall_mem_singleton.mpr (.text a.2)⟩)
    have attributes : ∀ v ∈ attributesJson? e.attributes, v.Worded := by
      unfold attributesJson?
      split
      · simp
      · simpa using Worded.array (List.forall_mem_map.mpr fun a _ => entry a)
    have children : ∀ v ∈ childrenJson? e.children, v.Worded := by
      unfold childrenJson?
      split
      · simp
      · simpa [toJsonAll_eq] using Worded.array (List.forall_mem_map.mpr ih)
    have text : ∀ v ∈ e.text.map Json.ofText, v.Worded := by
      cases e.text with
      | none => simp
      | some t => simpa using Worded.text t
    have name : ∀ v ∈ some (Json.ofText e.name), v.Worded := by simpa using Worded.text e.name
    rw [toJson_eq]
    refine .object ?_
    simp only [List.forall_mem_append]
    exact ⟨⟨⟨worded_member name, worded_member attributes⟩, worded_member text⟩,
      worded_member children⟩

theorem printed_element (e : Element) : (∃ s : Json.Script, s.Writes (e.toJson.pretty 0)) ∧
    ∀ s : Json.Script, s.Writes (e.toJson.pretty 0) → s.json?.bind ofJson? = some e := by
  obtain ⟨s, octets, meaning⟩ := e.toJson_worded.printed 0
  have written : s.Writes (e.toJson.pretty 0) := ⟨.none, .none, by simp [Json.Gap.none, octets]⟩
  refine ⟨⟨s, written⟩, fun s' written' => ?_⟩
  rw [written'.unique written, meaning]
  exact ofJson?_toJson e

theorem pretty_injective {e e' : Element} (same : e.toJson.pretty 0 = e'.toJson.pretty 0) :
    e = e' := by
  obtain ⟨⟨s, written⟩, held⟩ := printed_element e
  have held' := (printed_element e').2 s (same ▸ written)
  exact Option.some.inj ((held s written).symm.trans held')

end Markup.Element

open Markup Markup.Element

/-- The JSON form carries the whole tree: the text is JSON, every way of taking it apart as such
gives back the element, and so the text determines the document, down to whether an element has an
empty text or none. -/
theorem json_carries_tree :
    (∀ e : Element, (∃ s : Json.Script, s.Writes (e.toJson.pretty 0)) ∧
      ∀ s : Json.Script, s.Writes (e.toJson.pretty 0) → s.json?.bind ofJson? = some e) ∧
    (∀ p q : Procedure, p.json = q.json → p.element = q.element) ∧
    ∀ e : Element, ({ e with text := none } : Element).toJson.pretty 0 ≠
      ({ e with text := some "" } : Element).toJson.pretty 0 := by
  refine ⟨printed_element, fun p q same => pretty_injective same, fun e same => ?_⟩
  have text := congrArg Element.text (pretty_injective same)
  cases text

def Markup.stamp : Element where
  name := "Stamp"
  attributes := [("ID", "\"\\"), ("ID", "\x07\t\u00e9")]
  children := [{ name := "", text := some "" }, { name := "\n" }]

def Procedure.dated (nanosecond : Nat) : Procedure where
  id := "1"
  title := "Stamp"
  description := ""
  modified := ⟨2024, 3, 1, 9, 30, 15, nanosecond⟩
  level := []

theorem stamp_carried :
    (∃ s : Json.Script, s.Writes (stamp.toJson.pretty 0) ∧ s.json?.bind ofJson? = some stamp) ∧
      (Procedure.dated 1).json = (Procedure.dated 2).json ∧
      (Procedure.dated 1).element = (Procedure.dated 2).element := by
  obtain ⟨trees, documents, -⟩ := json_carries_tree
  obtain ⟨⟨s, written⟩, held⟩ := trees stamp
  have date : (Procedure.dated 1).modified.toText = (Procedure.dated 2).modified.toText := by
    decide +kernel
  have same : (Procedure.dated 1).json = (Procedure.dated 2).json := by
    rw [Procedure.json, Procedure.element, date]
    rfl
  exact ⟨⟨s, written, held s written⟩, same, documents _ _ same⟩

end FieldProcedure
