import FieldProcedure.Text.Blank
import Mathlib.Data.List.DropRight

/-! Trimming leaves no blank at either end, so that a text which has been trimmed stays as it is. -/
namespace FieldProcedure.Text

theorem dropEndWhile_eq_rdropWhile (p : Char → Bool) (cs : List Char) :
    dropEndWhile p cs = cs.rdropWhile p := rfl

theorem dropWhile_strip (cs : List Char) : (strip cs).dropWhile isBlank = strip cs := by
  rw [strip, dropEndWhile_eq_rdropWhile, List.dropWhile_eq_self_iff]
  intro filled
  have front : (cs.dropWhile isBlank).rdropWhile isBlank <+: cs.dropWhile isBlank :=
    List.rdropWhile_prefix _ _
  have first := front.getElem filled
  have nonempty : cs.dropWhile isBlank ≠ [] := by
    intro empty
    rw [empty] at filled
    exact absurd filled (by decide)
  rw [first]
  exact List.dropWhile_get_zero_not _ _ (List.length_pos_iff.mpr nonempty)

theorem strip_strip (cs : List Char) : strip (strip cs) = strip cs := by
  rw [strip, dropWhile_strip]
  exact List.rdropWhile_idempotent isBlank (cs.dropWhile isBlank)

theorem strip_eq_self_iff {cs : List Char} : strip cs = cs ↔
    (∀ c ∈ cs.head?, isBlank c = false) ∧ ∀ c ∈ cs.getLast?, isBlank c = false := by
  have front : cs.dropWhile isBlank = cs ↔ ∀ c ∈ cs.head?, isBlank c = false := by
    rw [List.dropWhile_eq_self_iff]
    cases cs <;> simp
  have back : dropEndWhile isBlank cs = cs ↔ ∀ c ∈ cs.getLast?, isBlank c = false := by
    rw [dropEndWhile_eq_rdropWhile, List.rdropWhile_eq_self_iff]
    cases cs <;> simp [List.getLast?_eq_some_getLast]
  rw [← front, ← back]
  constructor
  · intro h
    have whole := dropWhile_strip cs
    rw [h] at whole
    rw [strip, whole] at h
    exact ⟨whole, h⟩
  · rintro ⟨whole, h⟩
    rw [strip, whole, h]

theorem strip_of_no_blanks {cs : List Char} (h : ∀ c ∈ cs, isBlank c = false) : strip cs = cs :=
  strip_eq_self_iff.mpr
    ⟨fun c hc => h c (List.mem_of_mem_head? hc), fun c hc => h c (List.mem_of_mem_getLast? hc)⟩

theorem strip_append_cons {before after : List Char} {mark : Char} (front : strip before = before)
    (back : strip after = after) (hm : isBlank mark = false) :
    strip (before ++ mark :: after) = before ++ mark :: after := by
  refine strip_eq_self_iff.mpr ⟨fun c hc => ?_, fun c hc => ?_⟩
  · cases before with
    | nil =>
      obtain rfl := Option.mem_some_iff.mp hc
      exact hm
    | cons b before => exact (strip_eq_self_iff.mp front).1 c hc
  · rw [List.getLast?_append_cons] at hc
    cases after with
    | nil =>
      obtain rfl := Option.mem_some_iff.mp hc
      exact hm
    | cons a after =>
      rw [List.getLast?_cons_cons] at hc
      exact (strip_eq_self_iff.mp back).2 c hc

section Parts

variable {cs before after : List Char} {mark : Char}

theorem dropWhile_append_cons {p : Char → Bool} (hm : p mark = false) :
    (before ++ mark :: after).dropWhile p = before.dropWhile p ++ mark :: after := by
  rw [List.dropWhile_append, List.dropWhile_cons_of_neg (by rw [hm]; decide)]
  split
  · next empty => rw [List.isEmpty_iff.mp empty, List.nil_append]
  · rfl

theorem strip_around (hm : isBlank mark = false) : strip (before ++ mark :: after) =
    before.dropWhile isBlank ++ mark :: dropEndWhile isBlank after := by
  have turned : (before.dropWhile isBlank ++ mark :: after).reverse =
      after.reverse ++ mark :: (before.dropWhile isBlank).reverse := by
    rw [List.reverse_append, List.reverse_cons, List.append_assoc, List.singleton_append]
  rw [strip, dropWhile_append_cons hm, dropEndWhile, turned, dropWhile_append_cons hm,
    List.reverse_append, List.reverse_cons, List.reverse_reverse, List.append_assoc,
    List.singleton_append, dropEndWhile]

theorem strip_dropWhile (cs : List Char) : strip (cs.dropWhile isBlank) = strip cs := by
  rw [strip, List.dropWhile_idempotent, strip]

theorem strip_append_blanks {blanks : List Char} (h : ∀ c ∈ blanks, isBlank c = true) :
    strip (cs ++ blanks) = strip cs := by
  have ends (front : List Char) : dropEndWhile isBlank (front ++ blanks) =
      dropEndWhile isBlank front := by
    rw [dropEndWhile, List.reverse_append,
      List.dropWhile_append_of_pos fun c hc => h c (List.mem_reverse.mp hc), dropEndWhile]
  rw [strip, List.dropWhile_append, strip]
  split
  · next empty =>
    rw [List.isEmpty_iff.mp empty, List.dropWhile_eq_nil_iff.mpr h]
  · exact ends _

theorem strip_dropEndWhile (cs : List Char) : strip (dropEndWhile isBlank cs) = strip cs := by
  have blanks : ∀ c ∈ (cs.reverse.takeWhile isBlank).reverse, isBlank c = true :=
    fun c hc => List.mem_takeWhile_imp (List.mem_reverse.mp hc)
  have whole : dropEndWhile isBlank cs ++ (cs.reverse.takeWhile isBlank).reverse = cs := by
    rw [dropEndWhile, ← List.reverse_append, List.takeWhile_append_dropWhile, List.reverse_reverse]
  rw [← strip_append_blanks blanks, whole]

end Parts

theorem strip_sublist (cs : List Char) : (strip cs).Sublist cs :=
  (List.rdropWhile_prefix isBlank _).sublist.trans (List.dropWhile_sublist isBlank)

@[simp]
theorem trim_trim (s : String) : trim (trim s) = trim s := by
  simp only [trim, String.toList_ofList, strip_strip]

theorem trim_ofList_strip (cs : List Char) :
    trim (String.ofList (strip cs)) = String.ofList (strip cs) := by
  rw [trim, String.toList_ofList, strip_strip]

theorem trim_eq_empty {s : String} : trim s = "" ↔ isAllBlank s = true := by
  simp only [trim, strip, dropEndWhile, isAllBlank, String.ofList_eq_empty_iff,
    List.reverse_eq_nil_iff, List.dropWhile_eq_nil_iff, List.mem_reverse, List.all_eq_true]
  constructor
  · intro rest c hc
    rw [← List.takeWhile_append_dropWhile (p := isBlank) (l := s.toList)] at hc
    rcases List.mem_append.mp hc with front | back
    · exact List.mem_takeWhile_imp front
    · exact rest c back
  · exact fun all c hc => all c ((List.dropWhile_sublist _).mem hc)

@[simp]
theorem isAllBlank_trim (s : String) : isAllBlank (trim s) = isAllBlank s := by
  rw [Bool.eq_iff_iff, ← trim_eq_empty, ← trim_eq_empty, trim_trim]

@[simp]
theorem trimmed?_trim (s : String) : trimmed? (trim s) = trimmed? s := by
  simp only [trimmed?, isAllBlank_trim, trim_trim]

theorem trim_eq_self_iff {s : String} : trim s = s ↔ strip s.toList = s.toList := by
  rw [← String.toList_inj, trim, String.toList_ofList]

theorem trimmed?_eq_some {s t : String} :
    trimmed? s = some t ↔ isAllBlank s = false ∧ trim s = t := by
  unfold trimmed?
  split <;> simp_all

theorem trimmed?_of_trimmed? {s t : String} (h : trimmed? s = some t) : trimmed? t = some t := by
  obtain ⟨filled, rfl⟩ := trimmed?_eq_some.mp h
  rwa [trimmed?_trim]

theorem bind_trimmed? (o : Option String) :
    (o.bind trimmed?).bind trimmed? = o.bind trimmed? := by
  rw [Option.bind_assoc]
  refine Option.bind_congr fun s _ => ?_
  cases h : trimmed? s with
  | none => rfl
  | some t => exact trimmed?_of_trimmed? h

theorem filterMap_trimmed? (texts : List String) :
    (texts.filterMap trimmed?).filterMap trimmed? = texts.filterMap trimmed? := by
  rw [List.filterMap_filterMap]
  exact List.filterMap_congr fun s _ => bind_trimmed? (some s)

theorem filterMap_trimmed?_eq_nil {texts : List String} :
    texts.filterMap trimmed? = [] ↔ texts.all isAllBlank = true := by
  simp [trimmed?, List.filterMap_eq_nil_iff]

end FieldProcedure.Text
