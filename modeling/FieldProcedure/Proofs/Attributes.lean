import FieldProcedure.Proofs.Bases

/-! Attributes as a map that keeps the order of its keys. A setting gives the first entry of its key
another value, or adds an entry at the end. So the keys stand in the order of their first setting,
and under a key stands the value that was set last. An element whose keys are distinct comes about
by setting its attributes one after the other, and a procedure document consists of such
elements. -/
namespace FieldProcedure

namespace Markup.Element

variable {key value : String} {entries changed : List (String × String)}

def keys (entries : List (String × String)) : List String := entries.map (·.1)

@[simp] theorem keys_nil : keys [] = [] := rfl

@[simp] theorem keys_cons (first : String × String) (rest : List (String × String)) :
    keys (first :: rest) = first.1 :: keys rest :=
  rfl

@[simp] theorem keys_append (entries more : List (String × String)) :
    keys (entries ++ more) = keys entries ++ keys more :=
  List.map_append

/-! ### One setting -/

/-- How a setting changes a list of entries. Later entries of the same key stay as they are. -/
inductive Sets (key value : String) : List (String × String) → List (String × String) → Prop
  | replace (front : List (String × String)) (old : String) (back : List (String × String)) :
    key ∉ keys front → Sets key value (front ++ (key, old) :: back) (front ++ (key, value) :: back)
  | add (entries : List (String × String)) :
    key ∉ keys entries → Sets key value entries (entries ++ [(key, value)])

theorem Sets.beyond {first : String × String} (h : Sets key value entries changed)
    (other : first.1 ≠ key) : Sets key value (first :: entries) (first :: changed) := by
  cases h with
  | replace front old back absent =>
    exact .replace (first :: front) old back (by simp [absent, other.symm])
  | add _ absent => exact .add (first :: entries) (by simp [absent, other.symm])

theorem sets_assign (key value : String) (entries : List (String × String)) :
    Sets key value entries (assign key value entries) := by
  induction entries with
  | nil => exact .add [] List.not_mem_nil
  | cons first rest ih =>
    obtain ⟨k, v⟩ := first
    rw [assign]
    split
    · next same =>
      subst same
      exact .replace [] v rest List.not_mem_nil
    · next other => exact ih.beyond other

theorem Sets.keys_eq (h : Sets key value entries changed) :
    keys changed = if key ∈ keys entries then keys entries else keys entries ++ [key] := by
  cases h with
  | replace front old back absent => simp
  | add _ absent => simp [absent]

theorem Sets.eq_concat (h : Sets key value entries changed) (absent : key ∉ keys entries) :
    changed = entries ++ [(key, value)] := by
  cases h with
  | replace front old back _ => simp at absent
  | add _ _ => rfl

theorem Sets.nodup (h : Sets key value entries changed) (distinct : (keys entries).Nodup) :
    (keys changed).Nodup := by
  rw [h.keys_eq]
  split
  · exact distinct
  · next absent => exact distinct.append (List.nodup_singleton key) (by simpa using absent)

theorem Sets.lookup_eq (h : Sets key value entries changed) (sought : String) :
    changed.lookup sought = if sought = key then some value else entries.lookup sought := by
  split
  · next same =>
    subst same
    cases h with
    | replace front old back absent => simp [List.lookup_append, lookup_eq_none_of_not_mem absent]
    | add _ absent => simp [List.lookup_append, lookup_eq_none_of_not_mem absent]
  · next other =>
    have apart : (sought == key) = false := beq_eq_false_iff_ne.mpr other
    cases h with
    | replace front old back absent => simp only [List.lookup_append, List.lookup_cons, apart]
    | add _ absent => simp [List.lookup_append, List.lookup_cons, apart]

theorem attribute?_setAttribute (e : Element) (key value sought : String) :
    (e.setAttribute key value).attribute? sought =
      if sought = key then some value else e.attribute? sought :=
  (sets_assign key value e.attributes).lookup_eq sought

/-! ### Any number of settings -/

def setAttributes (e : Element) (settings : List (String × String)) : Element :=
  settings.foldl (fun e (key, value) => e.setAttribute key value) e

theorem setAttributes_concat (e : Element) (settings : List (String × String))
    (last : String × String) : e.setAttributes (settings ++ [last]) =
      (e.setAttributes settings).setAttribute last.1 last.2 := by
  simp only [setAttributes, List.foldl_append, List.foldl_cons, List.foldl_nil]

theorem sets_concat (e : Element) (settings : List (String × String)) (last : String × String) :
    Sets last.1 last.2 (e.setAttributes settings).attributes
      (e.setAttributes (settings ++ [last])).attributes := by
  rw [setAttributes_concat]
  exact sets_assign last.1 last.2 _

theorem nodup_setAttributes {e : Element} (h : (keys e.attributes).Nodup)
    (settings : List (String × String)) : (keys (e.setAttributes settings).attributes).Nodup := by
  induction settings using List.reverseRecOn with
  | nil => exact h
  | append_singleton settings last ih => exact (sets_concat e settings last).nodup ih

theorem eraseDups_concat (l : List String) (a : String) :
    (l ++ [a]).eraseDups = if a ∈ l then l.eraseDups else l.eraseDups ++ [a] := by
  rw [List.eraseDups_append]
  split
  · next inside => simp [List.removeAll, inside]
  · next outside => simp [List.removeAll, outside, List.eraseDups_cons]

theorem keys_setAttributes (e : Element) (settings : List (String × String)) :
    keys (e.setAttributes settings).attributes =
      keys e.attributes ++ ((keys settings).filter (· ∉ keys e.attributes)).eraseDups := by
  induction settings using List.reverseRecOn with
  | nil => simp [setAttributes]
  | append_singleton settings last ih =>
    rw [(sets_concat e settings last).keys_eq, ih, keys_append, List.filter_append]
    -- The last setting adds its key unless the element had it, or an earlier setting added it.
    by_cases old : last.1 ∈ keys e.attributes
    · simp [old]
    · have kept : (keys [last]).filter (· ∉ keys e.attributes) = [last.1] := by simp [old]
      rw [kept, eraseDups_concat]
      by_cases again : last.1 ∈ keys settings <;> simp [old, again]

theorem attribute?_setAttributes (e : Element) (settings : List (String × String)) (key : String) :
    (e.setAttributes settings).attribute? key =
      (settings.reverse.lookup key).or (e.attribute? key) := by
  induction settings using List.reverseRecOn with
  | nil => rfl
  | append_singleton settings last ih =>
    obtain ⟨k, v⟩ := last
    rw [setAttributes_concat, attribute?_setAttribute, ih, List.reverse_concat, List.lookup_cons]
    split
    · next same => simp [same]
    · next other => simp [beq_eq_false_iff_ne.mpr other]

theorem setAttributes_attributes {e : Element} (h : (keys e.attributes).Nodup) :
    { e with attributes := [] }.setAttributes e.attributes = e := by
  obtain ⟨name, attributes, text, children⟩ := e
  induction attributes using List.reverseRecOn with
  | nil => rfl
  | append_singleton former last ih =>
    obtain ⟨distinct, -, apart⟩ := List.nodup_append.mp (keys_append former [last] ▸ h)
    have fresh : last.1 ∉ keys former := fun inside =>
      apart _ inside _ (List.mem_singleton_self _) rfl
    rw [setAttributes_concat, ih distinct, setAttribute,
      (sets_assign last.1 last.2 former).eq_concat fresh]

end Markup.Element

open Markup Markup.Element

open Rendering in
theorem Procedure.distinct_keys (p : Procedure) {e : Element} (he : e ∈ p.element.walk) :
    (keys e.attributes).Nodup := by
  have distinct : ∀ entry ∈ vocabulary, entry.2.Nodup := by decide
  exact distinct _ (p.regular_element.walked e he)

/-- Attributes are a map in the order of its keys' first setting, where only the first of several
entries with one key is read and changed; in a procedure document all keys are distinct. -/
theorem attributes_keep_order :
    (∀ (e : Element) (settings : List (String × String)),
      ((keys e.attributes).Nodup → (keys (e.setAttributes settings).attributes).Nodup) ∧
      keys (e.setAttributes settings).attributes =
        keys e.attributes ++ ((keys settings).filter (· ∉ keys e.attributes)).eraseDups ∧
      ∀ key, (e.setAttributes settings).attribute? key =
        (settings.reverse.lookup key).or (e.attribute? key)) ∧
    (∀ (e : Element) (key value : String),
      (∃ changed, Sets key value e.attributes changed ∧
        e.setAttribute key value = { e with attributes := changed }) ∧
      (e.setAttribute key value).attribute? key = some value ∧
      ∀ other ≠ key, (e.setAttribute key value).attribute? other = e.attribute? other) ∧
    ∀ p : Procedure, ∀ e ∈ p.element.walk, (keys e.attributes).Nodup ∧
      { e with attributes := [] }.setAttributes e.attributes = e := by
  refine ⟨fun e settings => ⟨?_, ?_, ?_⟩, fun e key value => ⟨?_, ?_, ?_⟩, fun p e he => ?_⟩
  · exact fun distinct => nodup_setAttributes distinct settings
  · exact keys_setAttributes e settings
  · exact attribute?_setAttributes e settings
  · exact ⟨_, sets_assign key value e.attributes, rfl⟩
  · rw [attribute?_setAttribute, if_pos rfl]
  · intro other apart
    rw [attribute?_setAttribute, if_neg apart]
  · have distinct := p.distinct_keys he
    exact ⟨distinct, setAttributes_attributes distinct⟩

def Markup.gauge (units : List String) : Element where
  name := "Gauge"
  attributes := units.map ("Unit", ·) ++ [("Range", "0-10")]

def Operation.gauges : Operation := .group ⟨"1", "Gauges", "", none, [], 1⟩ true []

def Procedure.readings : Procedure where
  id := "2"
  title := "Readings"
  description := ""
  modified := ⟨2024, 3, 1, 9, 30, 15, 0⟩
  level := [.gauges]

theorem gauge_keeps_order :
    (∃ settings, (keys ((gauge ["bar"]).setAttributes settings).attributes).Nodup ∧
      keys ((gauge ["bar"]).setAttributes settings).attributes = ["Unit", "Range", "Mark", "Zero"] ∧
      ((gauge ["bar"]).setAttributes settings).attribute? "Mark" = some "green" ∧
      ((gauge ["bar"]).setAttributes settings).attribute? "Range" = some "0-10") ∧
    ((gauge ["bar", "psi"]).setAttribute "Unit" "kPa").attribute? "Range" = some "0-10" ∧
    ∃ e ∈ Procedure.readings.element.walk,
      e.attributes = [("Type", "GroupStep"), ("IsReport", "true")] ∧ (keys e.attributes).Nodup := by
  obtain ⟨runs, steps, documents⟩ := attributes_keep_order
  have distinct : (keys (gauge ["bar"]).attributes).Nodup := by decide
  have group : Rendering.operationElement .gauges ∈ Procedure.readings.element.walk :=
    List.mem_of_getElem? (i := 18) rfl
  refine ⟨⟨[("Mark", "red"), ("Unit", "psi"), ("Zero", "no"), ("Mark", "green")], ?_⟩, ?_, ?_⟩
  · obtain ⟨kept, order, values⟩ := runs (gauge ["bar"])
      [("Mark", "red"), ("Unit", "psi"), ("Zero", "no"), ("Mark", "green")]
    exact ⟨kept distinct, order.trans (by decide), (values "Mark").trans (by decide),
      (values "Range").trans (by decide)⟩
  · obtain ⟨-, -, others⟩ := steps (gauge ["bar", "psi"]) "Unit" "kPa"
    exact others "Range" (by decide)
  · exact ⟨_, group, rfl, (documents Procedure.readings _ group).1⟩

end FieldProcedure
