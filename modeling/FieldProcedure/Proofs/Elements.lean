import FieldProcedure.Markup.Element
import Mathlib.Data.List.Basic

/-! Trees of elements, their texts and the values of their attributes: where these stand, and how a
tree changes when every one of them is replaced. -/
namespace FieldProcedure.Markup.Element

variable {f g : List Char → List Char} {head : String → List (String × String) → Prop}

theorem treeInduction {P : Element → Prop} (h : ∀ e, (∀ c ∈ e.children, P c) → P e)
    (e : Element) : P e := h e fun c _ => treeInduction h c
termination_by sizeOf e
decreasing_by
  have inside : sizeOf c < sizeOf e.children := List.sizeOf_lt_of_mem ‹_›
  obtain ⟨name, attributes, text, children⟩ := e
  simp only [Element.mk.sizeOf_spec] at inside ⊢
  omega

/-- No element has both a text and children, and the name and attributes of each are such. -/
inductive Regular (head : String → List (String × String) → Prop) : Element → Prop
  | bare {name : String} {attributes : List (String × String)} : head name attributes →
    Regular head ⟨name, attributes, none, []⟩
  | leaf {name : String} {attributes : List (String × String)} {text : String} :
    head name attributes → Regular head ⟨name, attributes, some text, []⟩
  | branch {name : String} {attributes : List (String × String)} {first : Element}
    {rest : List Element} : head name attributes → (∀ c ∈ first :: rest, Regular head c) →
    Regular head ⟨name, attributes, none, first :: rest⟩

theorem Regular.of_children {name : String} {attributes : List (String × String)}
    {children : List Element} (h : head name attributes) (each : ∀ c ∈ children, c.Regular head) :
    Regular head ⟨name, attributes, none, children⟩ := by
  cases children with
  | nil => exact .bare h
  | cons first rest => exact .branch h each

theorem regular_iff {name : String} {attributes : List (String × String)}
    {children : List Element} : Regular head ⟨name, attributes, none, children⟩ ↔
      head name attributes ∧ ∀ c ∈ children, c.Regular head := by
  refine ⟨fun h => ?_, fun ⟨h, each⟩ => .of_children h each⟩
  cases h with
  | bare h => exact ⟨h, fun _ hc => nomatch hc⟩
  | branch h each => exact ⟨h, each⟩

@[simp] theorem regular_ofText_iff {name text : String} :
    (ofText name text).Regular head ↔ head name [] :=
  ⟨fun h => by cases h; assumption, .leaf⟩

theorem Regular.imp {head' : String → List (String × String) → Prop}
    (imp : ∀ name attributes, head name attributes → head' name attributes) {e : Element}
    (h : e.Regular head) : e.Regular head' := by
  induction h with
  | bare here => exact .bare (imp _ _ here)
  | leaf here => exact .leaf (imp _ _ here)
  | branch here _ each => exact .branch (imp _ _ here) each

mutual
def texts : Element → List String
  | ⟨_, _, text, children⟩ => text.toList ++ textsAll children
def textsAll : List Element → List String
  | [] => []
  | e :: rest => e.texts ++ textsAll rest
end

mutual
def values : Element → List String
  | ⟨_, attributes, _, children⟩ => attributes.map (·.2) ++ valuesAll children
def valuesAll : List Element → List String
  | [] => []
  | e :: rest => e.values ++ valuesAll rest
end

theorem textsAll_eq (es : List Element) : textsAll es = es.flatMap texts := by
  induction es with
  | nil => rfl
  | cons e rest ih => rw [textsAll, ih, List.flatMap_cons]

theorem valuesAll_eq (es : List Element) : valuesAll es = es.flatMap values := by
  induction es with
  | nil => rfl
  | cons e rest ih => rw [valuesAll, ih, List.flatMap_cons]

@[simp] theorem texts_mk (name : String) (attributes : List (String × String))
    (text : Option String) (children : List Element) :
    texts ⟨name, attributes, text, children⟩ = text.toList ++ children.flatMap texts := by
  rw [texts, textsAll_eq]

@[simp] theorem values_mk (name : String) (attributes : List (String × String))
    (text : Option String) (children : List Element) :
    values ⟨name, attributes, text, children⟩ =
      attributes.map (·.2) ++ children.flatMap values := by
  rw [values, valuesAll_eq]

def Holds (P Q : String → Prop) (e : Element) : Prop := (∀ t ∈ e.texts, P t) ∧ ∀ v ∈ e.values, Q v

variable {P Q : String → Prop}

theorem holds_iff {name : String} {attributes : List (String × String)} {text : Option String}
    {children : List Element} : Holds P Q ⟨name, attributes, text, children⟩ ↔
      (∀ a ∈ attributes, Q a.2) ∧ (∀ t ∈ text, P t) ∧ ∀ c ∈ children, c.Holds P Q := by
  simp only [Holds, texts_mk, values_mk, List.forall_mem_append, List.forall_mem_map,
    List.forall_mem_flatMap, Option.mem_toList, forall_and]
  tauto

theorem holds_children_iff {name : String} {attributes : List (String × String)}
    {children : List Element} : Holds P Q ⟨name, attributes, none, children⟩ ↔
      (∀ a ∈ attributes, Q a.2) ∧ ∀ c ∈ children, c.Holds P Q := by
  simp [holds_iff]

@[simp] theorem holds_ofText {name text : String} : (ofText name text).Holds P Q ↔ P text := by
  simp [ofText, holds_iff]

theorem lookup_eq_none_of_not_mem {attributes : List (String × String)} {key : String}
    (h : key ∉ attributes.map (·.1)) : attributes.lookup key = none := by
  refine List.lookup_eq_none_iff.mpr fun entry hentry => bne_iff_ne.mpr fun same => h ?_
  exact same ▸ List.mem_map_of_mem hentry

def mapText (f : List Char → List Char) (s : String) : String := String.ofList (f s.toList)

@[simp] theorem toList_mapText (s : String) : (mapText f s).toList = f s.toList :=
  String.toList_ofList

def mapValues (g : List Char → List Char) (attributes : List (String × String)) :
    List (String × String) := attributes.map fun (key, value) => (key, mapText g value)

theorem keys_mapValues (attributes : List (String × String)) :
    (mapValues g attributes).map (·.1) = attributes.map (·.1) := by
  simp [mapValues]

mutual
def mapTexts (f g : List Char → List Char) : Element → Element
  | ⟨name, attributes, text, children⟩ =>
    ⟨name, mapValues g attributes, text.map (mapText f), mapTextsAll f g children⟩
def mapTextsAll (f g : List Char → List Char) : List Element → List Element
  | [] => []
  | e :: rest => e.mapTexts f g :: mapTextsAll f g rest
end

theorem mapTextsAll_eq (es : List Element) : mapTextsAll f g es = es.map (mapTexts f g) := by
  induction es with
  | nil => rfl
  | cons e rest ih => rw [mapTextsAll, ih, List.map_cons]

theorem mapTexts_eq (e : Element) : e.mapTexts f g =
    ⟨e.name, mapValues g e.attributes, e.text.map (mapText f), e.children.map (mapTexts f g)⟩ := by
  cases e
  rw [mapTexts, mapTextsAll_eq]

theorem mapText_mapText (f' : List Char → List Char) (s : String) :
    mapText f' (mapText f s) = mapText (f' ∘ f) s := by
  rw [mapText, toList_mapText]
  rfl

theorem mapText_eq_self_iff {s : String} : mapText f s = s ↔ f s.toList = s.toList := by
  rw [← String.toList_inj, toList_mapText]

theorem mapTexts_mapTexts (f' g' : List Char → List Char) (e : Element) :
    (e.mapTexts f g).mapTexts f' g' = e.mapTexts (f' ∘ f) (g' ∘ g) := by
  induction e using treeInduction with
  | h e ih =>
    have children : (e.children.map (mapTexts f g)).map (mapTexts f' g') =
        e.children.map (mapTexts (f' ∘ f) (g' ∘ g)) := by
      rw [List.map_map]
      exact List.map_congr_left ih
    simp [mapTexts_eq, children, mapValues, mapText_mapText, Function.comp_def]

theorem map_eq_self_iff {α : Type} {h : α → α} {l : List α} : l.map h = l ↔ ∀ a ∈ l, h a = a := by
  conv_lhs => rhs; rw [← List.map_id l]
  exact List.map_inj_left

theorem mapTexts_eq_self_iff (e : Element) : e.mapTexts f g = e ↔
    e.Holds (fun t => f t.toList = t.toList) (fun v => g v.toList = v.toList) := by
  induction e using treeInduction with
  | h e ih =>
    obtain ⟨name, attributes, text, children⟩ := e
    have values : mapValues g attributes = attributes ↔
        ∀ a ∈ attributes, g a.2.toList = a.2.toList := by
      simp [mapValues, map_eq_self_iff, mapText_eq_self_iff]
    have own : text.map (mapText f) = text ↔ ∀ t ∈ text, f t.toList = t.toList := by
      cases text <;> simp [mapText_eq_self_iff]
    rw [mapTexts_eq, Element.mk.injEq, values, own, map_eq_self_iff, forall₂_congr ih, holds_iff]
    exact and_iff_right rfl

theorem mapTexts_id (e : Element) : e.mapTexts id id = e :=
  (mapTexts_eq_self_iff e).mpr ⟨fun _ _ => rfl, fun _ _ => rfl⟩

theorem Regular.mapTexts
    (keep : ∀ name attributes, head name attributes → head name (mapValues g attributes))
    {e : Element} (h : e.Regular head) : (e.mapTexts f g).Regular head := by
  induction h with
  | bare here => exact .bare (keep _ _ here)
  | leaf here => exact .leaf (keep _ _ here)
  | branch here _ each =>
    rw [mapTexts_eq]
    exact .of_children (keep _ _ here) (List.forall_mem_map.mpr each)

end FieldProcedure.Markup.Element
