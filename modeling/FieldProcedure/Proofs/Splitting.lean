import FieldProcedure.Text.Split
import FieldProcedure.Proofs.Trimming

/-! Cutting texts at marks, and putting them together again. What is cut at every mark is what stood
between the marks, none of which is left; what is cut once is a text with the mark between two
parts, and the part on the near side holds no other mark. -/
namespace FieldProcedure.Text

variable {mark : Char} {cs before after : List Char}

theorem splitAll_eq_splitOn (mark : Char) (cs : List Char) :
    splitAll mark cs = cs.splitOn mark := by
  induction cs with
  | nil => rfl
  | cons c cs ih =>
    rw [splitAll, List.splitOn_cons_eq_if_modifyHead, ih]
    by_cases hc : c = mark
    · simp only [hc, beq_self_eq_true, if_true]
    · obtain ⟨part, parts, split⟩ := List.exists_cons_of_ne_nil (List.splitOn_ne_nil mark cs)
      simp only [hc, beq_iff_eq, if_false, split, List.modifyHead_cons]

theorem of_mem_splitAll {part : List Char} {c : Char} (h : part ∈ splitAll mark cs)
    (hc : c ∈ part) : c ∈ cs ∧ c ≠ mark := by
  induction cs generalizing part with
  | nil =>
    obtain rfl := List.mem_singleton.mp h
    cases hc
  | cons first cs ih =>
    rw [splitAll_eq_splitOn, List.splitOn_cons_eq_if_modifyHead, ← splitAll_eq_splitOn] at h
    obtain ⟨next, parts, split⟩ :=
      List.exists_cons_of_ne_nil (splitAll_eq_splitOn mark cs ▸ List.splitOn_ne_nil mark cs)
    rw [split] at h ih
    by_cases stop : first = mark
    · rw [if_pos (beq_iff_eq.mpr stop)] at h
      rcases List.mem_cons.mp h with rfl | h
      · cases hc
      · exact (ih h hc).imp_left (List.mem_cons_of_mem _)
    · rw [if_neg (by simpa using stop), List.modifyHead_cons] at h
      rcases List.mem_cons.mp h with rfl | h
      · rcases List.mem_cons.mp hc with rfl | hc
        · exact ⟨List.mem_cons_self, stop⟩
        · exact (ih List.mem_cons_self hc).imp_left (List.mem_cons_of_mem _)
      · exact (ih (List.mem_cons_of_mem _ h) hc).imp_left (List.mem_cons_of_mem _)

theorem splitFirst?_append (free : mark ∉ before) :
    splitFirst? mark (before ++ mark :: after) = some (before, after) := by
  induction before with
  | nil => simp [splitFirst?]
  | cons b before ih =>
    rw [List.mem_cons, not_or] at free
    simp [splitFirst?, Ne.symm free.1, ih free.2]

theorem of_splitFirst? (h : splitFirst? mark cs = some (before, after)) :
    cs = before ++ mark :: after ∧ mark ∉ before := by
  induction cs generalizing before with
  | nil => cases h
  | cons c cs ih =>
    rw [splitFirst?] at h
    split at h
    · next hc =>
      cases h
      exact ⟨by rw [hc, List.nil_append], List.not_mem_nil⟩
    · next hc =>
      obtain ⟨⟨first, rest⟩, split, parts⟩ := Option.map_eq_some_iff.mp h
      cases parts
      obtain ⟨rfl, free⟩ := ih split
      exact ⟨rfl, List.not_mem_cons_of_ne_of_not_mem (Ne.symm hc) free⟩

theorem splitLast?_append (free : mark ∉ after) :
    splitLast? mark (before ++ mark :: after) = some (before, after) := by
  have turned : (before ++ mark :: after).reverse = after.reverse ++ mark :: before.reverse := by
    simp
  rw [splitLast?, turned, splitFirst?_append (by simpa using free)]
  simp

theorem of_splitLast? (h : splitLast? mark cs = some (before, after)) :
    cs = before ++ mark :: after ∧ mark ∉ after := by
  obtain ⟨⟨last, first⟩, split, parts⟩ := Option.map_eq_some_iff.mp h
  cases parts
  obtain ⟨whole, free⟩ := of_splitFirst? split
  refine ⟨?_, by simpa using free⟩
  rw [← List.reverse_inj]
  simpa using whole

end FieldProcedure.Text
