import FieldProcedure.Text.Lowercase
import FieldProcedure.Proofs.Trimming
import Mathlib.Data.List.TakeWhile

/-! Lower case is settled after one pass: no form that lowering gives is lowered again, not even at
the end of a word. And lowering makes no blanks and no marks, so that a text which is trimmed and
holds no mark stays so. Both rest on what the table of letter case leaves alone; it is compared with
itself run by run, because there are few runs and many letters. -/
namespace FieldProcedure.Text

/-- Ranges of code points where no lower-case form may lie: blanks, the marks of cells, letters that
are lowered without the table, and what is no character at all. -/
def offLimits : List (Nat × Nat) :=
  [(0, 0x20), (0x3A, 0x3B), (0x41, 0x5A), (0x7F, 0xA0), (0x130, 0x130), (0x3A3, 0x3A3),
    (0x1680, 0x1680), (0x2000, 0x200A), (0x2028, 0x2029), (0x202F, 0x202F), (0x205F, 0x205F),
    (0x3000, 0x3000), (0xD800, 0xDFFF)]

namespace CaseRun

def form (r : CaseRun) (n : Nat) : Nat := (n + r.shift).toNat

def avoids (r : CaseRun) (ranges : List (Nat × Nat)) : Bool :=
  Nat.blt 0 (r.form r.first) && Nat.blt (r.form r.last) 0x110000 &&
    ranges.all fun range => Nat.blt (r.form r.last) range.1 || Nat.blt range.2 (r.form r.first)

/-- No form of the run is covered by the other. Every second code point of a range is covered if the
capitals and the small letters of a script alternate. -/
def misses (r other : CaseRun) : Bool :=
  Nat.blt (r.form r.last) other.first || Nat.blt other.last (r.form r.first) ||
    (Nat.beq other.step 2 && (Nat.beq r.step 2 || Nat.beq r.first r.last) &&
      Nat.beq ((r.form r.first + other.first) % 2) 1)

variable {r other : CaseRun} {ranges : List (Nat × Nat)} {n : Nat}

theorem covers_iff : r.covers n = true ↔
    r.first ≤ n ∧ n ≤ r.last ∧ (n - r.first) % r.step = 0 := by
  simp [covers, and_assoc]

theorem avoids_iff : r.avoids ranges = true ↔
    0 < r.form r.first ∧ r.form r.last < 0x110000 ∧
      ∀ range ∈ ranges, r.form r.last < range.1 ∨ range.2 < r.form r.first := by
  simp [avoids, and_assoc]

theorem form_between (positive : 0 < r.form r.first) (h : r.covers n = true) :
    r.form r.first ≤ r.form n ∧ r.form n ≤ r.form r.last ∧ (r.form n : Int) = n + r.shift := by
  obtain ⟨first, last, _⟩ := covers_iff.mp h
  unfold form at *
  omega

theorem not_covers_form (positive : 0 < r.form r.first) (h : r.covers n = true)
    (misses : r.misses other = true) : other.covers (r.form n) = false := by
  obtain ⟨low, high, exact⟩ := form_between positive h
  obtain ⟨first, last, steps⟩ := covers_iff.mp h
  have start : (r.form r.first : Int) = r.first + r.shift := by
    unfold form at *
    omega
  refine Bool.eq_false_iff.mpr fun covered => ?_
  obtain ⟨first', last', steps'⟩ := covers_iff.mp covered
  simp only [CaseRun.misses, Bool.or_eq_true, Bool.and_eq_true, Nat.blt_eq, Nat.beq_eq] at misses
  rcases misses with (below | above) | ⟨⟨two, alternate | single⟩, odd⟩
  · omega
  · omega
  · -- The forms and what the other run covers alternate.
    rw [two] at steps'
    rw [alternate] at steps
    omega
  · rw [two] at steps'
    have only : n = r.first := by omega
    rw [only] at steps'
    omega

end CaseRun

theorem caseRuns_settled :
    (caseRuns.all fun r => r.avoids offLimits && caseRuns.all r.misses) = true := by
  decide +kernel

def Settled (c : Char) : Prop := lowerChar c = [c] ∧ c.toNat ≠ 0x3A3

def Plain (c : Char) : Prop := isBlank c = false ∧ c ≠ ':' ∧ c ≠ ';'

theorem plain_of_apart {c : Char}
    (h : ∀ range ∈ offLimits, c.toNat < range.1 ∨ range.2 < c.toNat) : Plain c := by
  simp only [offLimits, List.forall_mem_cons, List.not_mem_nil, false_imp_iff, implies_true,
    and_true] at h
  refine ⟨?_, ?_, ?_⟩
  · simp only [isBlank, Bool.or_eq_false_iff, Bool.and_eq_false_iff, decide_eq_false_iff_not,
      beq_eq_false_iff_ne]
    omega
  · rintro rfl
    revert h
    decide
  · rintro rfl
    revert h
    decide

theorem settled_of_apart {c : Char}
    (h : ∀ range ∈ offLimits, c.toNat < range.1 ∨ range.2 < c.toNat)
    (uncovered : ∀ r ∈ caseRuns, r.covers c.toNat = false) : Settled c := by
  have capital := h (0x41, 0x5A) (by decide)
  have dotted := h (0x130, 0x130) (by decide)
  have sigma := h (0x3A3, 0x3A3) (by decide)
  have unfound : caseRuns.find? (·.covers c.toNat) = none :=
    List.find?_eq_none.mpr fun r hr => by simp [uncovered r hr]
  have lower : c.toLower = c := by
    refine dif_neg fun upper => ?_
    have low : 65 ≤ c.toNat := UInt32.le_iff_toNat_le.mp upper.1
    have high : c.toNat ≤ 90 := UInt32.le_iff_toNat_le.mp upper.2
    omega
  refine ⟨?_, by omega⟩
  have notDotted : c.toNat ≠ 0x130 := by omega
  have notSigma : c.toNat ≠ 0x3A3 := by omega
  simp only [lowerChar, lower, notDotted, notSigma, unfound, if_false, ite_self]

theorem toNat_ofNat_of_apart {n : Nat} (small : n < 0x110000)
    (h : n < 0xD800 ∨ 0xDFFF < n) : (Char.ofNat n).toNat = n := by
  have valid : n.isValidChar := by
    unfold Nat.isValidChar
    omega
  rw [Char.ofNat, dif_pos valid]
  rfl

theorem form_settled {r : CaseRun} {n : Nat} (hr : r ∈ caseRuns) (h : r.covers n = true) :
    Settled (Char.ofNat (r.form n)) ∧ Plain (Char.ofNat (r.form n)) := by
  have table := List.all_eq_true.mp caseRuns_settled r hr
  obtain ⟨avoids, misses⟩ := Bool.and_eq_true_iff.mp table
  obtain ⟨positive, small, apart⟩ := CaseRun.avoids_iff.mp avoids
  obtain ⟨low, high, _⟩ := CaseRun.form_between positive h
  have away : ∀ range ∈ offLimits, r.form n < range.1 ∨ range.2 < r.form n := by
    intro range hrange
    have whole := apart range hrange
    omega
  have here : (Char.ofNat (r.form n)).toNat = r.form n :=
    toNat_ofNat_of_apart (by omega) (away (0xD800, 0xDFFF) (by decide))
  rw [← here] at away
  refine ⟨settled_of_apart away fun other hother => ?_, plain_of_apart away⟩
  rw [here]
  exact CaseRun.not_covers_form positive h (List.all_eq_true.mp misses other hother)

theorem caseRuns_not_ascii : (caseRuns.all fun r => Nat.ble 0x80 r.first) = true := by
  decide +kernel

theorem toLower_cases (c : Char) : c.toLower = c ∨ Settled c.toLower ∧ Plain c.toLower := by
  by_cases upper : c.val ≥ 'A'.val ∧ c.val ≤ 'Z'.val
  · refine .inr ?_
    have low : 65 ≤ c.toNat := UInt32.le_iff_toNat_le.mp upper.1
    have high : c.toNat ≤ 90 := UInt32.le_iff_toNat_le.mp upper.2
    have letter : c.toLower.toNat = c.toNat + 32 := by
      have form : c.toLower = _ := dif_pos upper
      rw [form]
      change (c.toNat + 32) % 4294967296 = _
      omega
    have apart : ∀ range ∈ offLimits,
        c.toLower.toNat < range.1 ∨ range.2 < c.toLower.toNat := by
      simp only [offLimits, List.forall_mem_cons, List.not_mem_nil, false_imp_iff, implies_true,
        and_true]
      omega
    refine ⟨settled_of_apart apart fun r hr => ?_, plain_of_apart apart⟩
    have beyond := Nat.ble_eq.mp (List.all_eq_true.mp caseRuns_not_ascii r hr)
    refine Bool.eq_false_iff.mpr fun covered => ?_
    have first := (CaseRun.covers_iff.mp covered).1
    omega
  · exact .inl (dif_neg upper)

theorem lowerChar_cases (c : Char) :
    lowerChar c = [c] ∧ c.toNat ≠ 0x3A3 ∨
      lowerChar c ≠ [] ∧ ∀ d ∈ lowerChar c, Settled d ∧ Plain d := by
  have dotted : ∀ d ∈ ['i', Char.ofNat 0x307], Settled d ∧ Plain d := by
    rw [List.forall_mem_cons, List.forall_mem_singleton]
    unfold Settled Plain
    decide +kernel
  have sigma : ∀ d ∈ [Char.ofNat 0x3C3], Settled d ∧ Plain d := by
    rw [List.forall_mem_singleton]
    unfold Settled Plain
    decide +kernel
  simp only [lowerChar]
  split
  · next ascii =>
    rcases toLower_cases c with same | settled
    · exact .inl ⟨by rw [same], by omega⟩
    · exact .inr ⟨List.cons_ne_nil _ _, by simpa using settled⟩
  · split
    · exact .inr ⟨List.cons_ne_nil _ _, dotted⟩
    · split
      · exact .inr ⟨List.cons_ne_nil _ _, sigma⟩
      · next notSigma =>
        split
        · next r hr =>
          have covers : r.covers c.toNat = true := by simpa using List.find?_some hr
          have settled := form_settled (List.mem_of_find?_eq_some hr) covers
          exact .inr ⟨List.cons_ne_nil _ _, by simpa [CaseRun.form] using settled⟩
        · exact .inl ⟨rfl, notSigma⟩

/-- The lower-case form of a letter where it stands: a sigma that ends a word has its own. -/
def lowerHere (inWord : Bool) (c : Char) (cs : List Char) : List Char :=
  if c.toNat = 0x3A3 && inWord && !casedAhead cs then [Char.ofNat 0x3C2] else lowerChar c

theorem lowerFrom_cons (inWord : Bool) (c : Char) (cs : List Char) :
    lowerFrom inWord (c :: cs) =
      lowerHere inWord c cs ++ lowerFrom (if isCaseIgnorable c then inWord else isCased c) cs := rfl

theorem lowerHere_cases (inWord : Bool) (c : Char) (cs : List Char) :
    lowerHere inWord c cs = [c] ∧ Settled c ∨
      lowerHere inWord c cs ≠ [] ∧ ∀ d ∈ lowerHere inWord c cs, Settled d ∧ Plain d := by
  have final : ∀ d ∈ [Char.ofNat 0x3C2], Settled d ∧ Plain d := by
    rw [List.forall_mem_singleton]
    unfold Settled Plain
    decide +kernel
  unfold lowerHere
  split
  · exact .inr ⟨List.cons_ne_nil _ _, final⟩
  · exact (lowerChar_cases c).imp_left fun same => ⟨same.1, same⟩

theorem lowerHere_of_settled {c : Char} (h : Settled c) (inWord : Bool) (cs : List Char) :
    lowerHere inWord c cs = [c] := by
  unfold lowerHere
  rw [if_neg (by simp [h.2]), h.1]

theorem settled_of_mem_lowerFrom {inWord : Bool} {cs : List Char} {d : Char}
    (h : d ∈ lowerFrom inWord cs) : Settled d := by
  induction cs generalizing inWord with
  | nil => cases h
  | cons c cs ih =>
    rw [lowerFrom_cons, List.mem_append] at h
    rcases h with here | later
    · rcases lowerHere_cases inWord c cs with ⟨same, settled⟩ | ⟨-, all⟩
      · rw [same, List.mem_singleton] at here
        exact here ▸ settled
      · exact (all d here).1
    · exact ih later

theorem lowerFrom_of_settled {inWord : Bool} {cs : List Char} (h : ∀ c ∈ cs, Settled c) :
    lowerFrom inWord cs = cs := by
  induction cs generalizing inWord with
  | nil => rfl
  | cons c cs ih =>
    rw [List.forall_mem_cons] at h
    rw [lowerFrom_cons, lowerHere_of_settled h.1, ih h.2, List.singleton_append]

theorem lower_lower (s : String) : lower (lower s) = lower s := by
  simp only [lower, String.toList_ofList]
  rw [lowerFrom_of_settled fun c => settled_of_mem_lowerFrom]

theorem mem_or_plain_of_mem_lowerFrom {inWord : Bool} {cs : List Char} {d : Char}
    (h : d ∈ lowerFrom inWord cs) : d ∈ cs ∨ Plain d := by
  induction cs generalizing inWord with
  | nil => cases h
  | cons c cs ih =>
    rw [lowerFrom_cons, List.mem_append] at h
    rcases h with here | later
    · rcases lowerHere_cases inWord c cs with ⟨same, -⟩ | ⟨-, all⟩
      · rw [same, List.mem_singleton] at here
        exact .inl (here ▸ List.mem_cons_self)
      · exact .inr (all d here).2
    · exact (ih later).imp_left (List.mem_cons_of_mem _)

theorem lowerHere_ne_nil (inWord : Bool) (c : Char) (cs : List Char) :
    lowerHere inWord c cs ≠ [] := by
  rcases lowerHere_cases inWord c cs with ⟨same, -⟩ | ⟨some, -⟩
  · rw [same]
    exact List.cons_ne_nil _ _
  · exact some

theorem eq_or_plain_of_mem_lowerHere {inWord : Bool} {c d : Char} {cs : List Char}
    (h : d ∈ lowerHere inWord c cs) : d = c ∨ Plain d := by
  rcases lowerHere_cases inWord c cs with ⟨same, -⟩ | ⟨-, all⟩
  · exact .inl (List.mem_singleton.mp (same ▸ h))
  · exact .inr (all d h).2

theorem head_lowerFrom {inWord : Bool} {cs : List Char} {d : Char}
    (h : d ∈ (lowerFrom inWord cs).head?) : d ∈ cs.head? ∨ Plain d := by
  cases cs with
  | nil => cases h
  | cons c cs =>
    rw [lowerFrom_cons, List.head?_append_of_ne_nil _ (lowerHere_ne_nil inWord c cs)] at h
    exact (eq_or_plain_of_mem_lowerHere (List.mem_of_mem_head? h)).imp_left fun same =>
      Option.mem_def.mpr (congrArg some same.symm)

theorem getLast_lowerFrom {inWord : Bool} {cs : List Char} {d : Char}
    (h : d ∈ (lowerFrom inWord cs).getLast?) : d ∈ cs.getLast? ∨ Plain d := by
  induction cs generalizing inWord with
  | nil => cases h
  | cons c cs ih =>
    rw [lowerFrom_cons] at h
    cases cs with
    | nil =>
      rw [lowerFrom, List.append_nil] at h
      exact (eq_or_plain_of_mem_lowerHere (List.mem_of_mem_getLast? h)).imp_left fun same =>
        Option.mem_def.mpr (congrArg some same.symm)
    | cons next cs =>
      rw [List.getLast?_append_of_ne_nil] at h
      · rw [List.getLast?_cons_cons]
        exact ih h
      · rw [lowerFrom_cons]
        exact List.append_ne_nil_of_left_ne_nil (lowerHere_ne_nil _ next cs) _

theorem strip_lowerFrom {inWord : Bool} {cs : List Char} (h : strip cs = cs) :
    strip (lowerFrom inWord cs) = lowerFrom inWord cs := by
  obtain ⟨first, last⟩ := strip_eq_self_iff.mp h
  refine strip_eq_self_iff.mpr ⟨fun d hd => ?_, fun d hd => ?_⟩
  · exact (head_lowerFrom hd).elim (first d) (·.1)
  · exact (getLast_lowerFrom hd).elim (last d) (·.1)

end FieldProcedure.Text
