import FieldProcedure.Proofs.Configs

/-! What a configuration answers. Under a key stands the value of the last pair that was put in with
a key stored like it; so it is found under every spelling of the key, in any case of its letters,
but under none with blanks around it, since a key is trimmed when it is stored and not when it is
sought. -/
namespace FieldProcedure

namespace Keyed

variable {α : Type}

theorem lookup_cons_eq (k : String) (v : α) (rest : List (String × α)) (sought : String) :
    ((k, v) :: rest).lookup sought = if sought = k then some v else rest.lookup sought := by
  by_cases h : sought = k
  · simp [h]
  · rw [List.lookup_cons, beq_eq_false_iff_ne.mpr h, if_neg h]

theorem lookup_place (key : String) (value : α) (entries : List (String × α)) (sought : String) :
    (place key value entries).lookup sought =
      if sought = key then some value else entries.lookup sought := by
  induction entries with
  | nil => exact lookup_cons_eq key value [] sought
  | cons first rest ih =>
    obtain ⟨k, v⟩ := first
    rw [place]
    split
    · next same =>
      subst same
      simp only [lookup_cons_eq]
      split <;> rfl
    · next other =>
      split
      · exact lookup_cons_eq key value _ sought
      · by_cases h : sought = k
        · have apart : sought ≠ key := fun same => other (same.symm.trans h)
          simp only [lookup_cons_eq, h, if_true, if_neg (h ▸ apart)]
        · simp only [lookup_cons_eq, if_neg h, ih]

theorem lookup_eq_some_iff {entries : List (String × α)} (h : Ascending entries) {key : String}
    {value : α} : entries.lookup key = some value ↔ (key, value) ∈ entries := by
  induction entries with
  | nil => simp
  | cons first rest ih =>
    obtain ⟨k, v⟩ := first
    obtain ⟨above, ascending⟩ := List.pairwise_cons.mp h
    rw [lookup_cons_eq]
    split
    · next same =>
      subst same
      have later : (key, value) ∉ rest := fun inside => (above _ inside).false
      simp [later, eq_comm]
    · next other => simp [ih ascending, other]

/-! Pairs put in their places one by one. -/

variable {β : Type} {pairs entries : List (String × α)} {key : String} {value : α}

theorem ofList_concat (pairs : List (String × α)) (last : String × α) :
    ofList (pairs ++ [last]) = place last.1 last.2 (ofList pairs) := by
  simp only [ofList, List.foldl_append, List.foldl_cons, List.foldl_nil]

theorem ascending_ofList (pairs : List (String × α)) : Ascending (ofList pairs) := by
  induction pairs using List.reverseRecOn with
  | nil => exact List.Pairwise.nil
  | append_singleton pairs last ih =>
    rw [ofList_concat]
    exact ascending_place ih

theorem mem_of_mem_ofList {x : String × α} (h : x ∈ ofList pairs) : x ∈ pairs := by
  induction pairs using List.reverseRecOn with
  | nil => exact h
  | append_singleton pairs last ih =>
    rw [ofList_concat] at h
    rcases mem_of_mem_place h with rfl | h
    · exact List.mem_append_right _ (List.mem_singleton_self _)
    · exact List.mem_append_left _ (ih h)

theorem lookup_ofList (pairs : List (String × α)) (key : String) : (ofList pairs).lookup key =
    ((pairs.filter fun p => p.1 = key).getLast?).map (·.2) := by
  induction pairs using List.reverseRecOn with
  | nil => rfl
  | append_singleton pairs last ih =>
    rw [ofList_concat, lookup_place, ih]
    by_cases h : key = last.1
    · simp [h]
    · simp [h, Ne.symm h]

theorem place_perm (fresh : ∀ x ∈ entries, x.1 ≠ key) :
    (place key value entries).Perm ((key, value) :: entries) := by
  induction entries with
  | nil => exact .refl _
  | cons first rest ih =>
    obtain ⟨other, later⟩ := List.forall_mem_cons.mp fresh
    rw [place, if_neg (Ne.symm other)]
    split
    · exact .refl _
    · exact ((ih later).cons _).trans (.swap _ _ _)

theorem ofList_perm (distinct : pairs.Pairwise fun x y => x.1 ≠ y.1) :
    (ofList pairs).Perm pairs := by
  induction pairs using List.reverseRecOn with
  | nil => exact .refl _
  | append_singleton pairs last ih =>
    obtain ⟨former, -, apart⟩ := List.pairwise_append.mp distinct
    rw [ofList_concat]
    refine (place_perm fun x hx => ?_).trans (((ih former).cons last).trans ?_)
    · exact apart x ((ih former).mem_iff.mp hx) last (List.mem_singleton_self last)
    · exact (List.perm_append_singleton last pairs).symm

theorem ofList_of_perm (h : Ascending entries) (perm : pairs.Perm entries) :
    ofList pairs = entries := by
  have distinct : pairs.Pairwise fun x y => x.1 ≠ y.1 :=
    (perm.pairwise_iff fun apart => Ne.symm apart).mpr (h.imp ne_of_lt)
  refine List.Perm.eq_of_pairwise (fun x y _ _ below above => ?_) (ascending_ofList pairs) h
    ((ofList_perm distinct).trans perm)
  exact absurd above (not_lt_of_gt below)

theorem getLast?_filter_of_greatest {p : String × α → Bool} {x : String × α}
    (h : Ascending entries) (hx : x ∈ entries.filter p)
    (greatest : ∀ y ∈ entries.filter p, y.1 ≤ x.1) : (entries.filter p).getLast? = some x := by
  have ascending : (entries.filter p).Pairwise fun x y => x.1 < y.1 := h.filter p
  cases last : (entries.filter p).getLast? with
  | none =>
    rw [List.getLast?_eq_none_iff.mp last] at hx
    cases hx
  | some z =>
    obtain ⟨front, split⟩ := List.getLast?_eq_some_iff.mp last
    rw [split] at hx greatest ascending
    obtain ⟨-, -, below⟩ := List.pairwise_append.mp ascending
    rcases List.mem_append.mp hx with inside | ends
    · have above := below x inside z (List.mem_singleton_self z)
      have least := greatest z (List.mem_append_right _ (List.mem_singleton_self z))
      exact absurd above (not_lt_of_ge least)
    · rw [List.mem_singleton.mp ends]

theorem map_place (f : α → β) (key : String) (value : α) (entries : List (String × α)) :
    (place key value entries).map (fun x => (x.1, f x.2)) =
      place key (f value) (entries.map fun x => (x.1, f x.2)) := by
  induction entries with
  | nil => rfl
  | cons first rest ih =>
    rw [place, List.map_cons, place]
    split
    · rfl
    · split
      · rfl
      · rw [List.map_cons, ih]

theorem map_ofList (f : α → β) (pairs : List (String × α)) :
    (ofList pairs).map (fun x => (x.1, f x.2)) = ofList (pairs.map fun x => (x.1, f x.2)) := by
  induction pairs using List.reverseRecOn with
  | nil => rfl
  | append_singleton pairs last ih =>
    rw [ofList_concat, map_place, ih, List.map_append, List.map_singleton, ofList_concat]

end Keyed

namespace Text

def blankPoints : List Nat :=
  [9, 10, 11, 12, 13, 0x20, 0x85, 0xA0, 0x1680, 0x2000, 0x2001, 0x2002, 0x2003, 0x2004, 0x2005,
    0x2006, 0x2007, 0x2008, 0x2009, 0x200A, 0x2028, 0x2029, 0x202F, 0x205F, 0x3000]

theorem lowerHere_of_isBlank {c : Char} (h : isBlank c = true) (inWord : Bool) (cs : List Char) :
    lowerHere inWord c cs = [c] := by
  have table : ∀ n ∈ blankPoints, lowerChar (Char.ofNat n) = [Char.ofNat n] ∧ n ≠ 0x3A3 := by
    decide +kernel
  have point : c.toNat ∈ blankPoints := by
    simp only [isBlank, Bool.or_eq_true, Bool.and_eq_true, decide_eq_true_eq, beq_iff_eq] at h
    simp only [blankPoints, List.mem_cons, List.not_mem_nil, or_false]
    omega
  obtain ⟨same, notSigma⟩ := table c.toNat point
  rw [Char.ofNat_toNat] at same
  rw [lowerHere, if_neg (by simp [notSigma]), same]

theorem head_lowerFrom_of_isBlank {inWord : Bool} {cs : List Char} {c : Char}
    (hc : c ∈ cs.head?) (h : isBlank c = true) : c ∈ (lowerFrom inWord cs).head? := by
  cases cs with
  | nil => cases hc
  | cons first cs =>
    obtain rfl := Option.mem_some_iff.mp hc
    rw [lowerFrom_cons, lowerHere_of_isBlank h]
    rfl

theorem getLast_lowerFrom_of_isBlank {inWord : Bool} {cs : List Char} {c : Char}
    (hc : c ∈ cs.getLast?) (h : isBlank c = true) : c ∈ (lowerFrom inWord cs).getLast? := by
  induction cs generalizing inWord with
  | nil => cases hc
  | cons first cs ih =>
    rw [lowerFrom_cons]
    cases cs with
    | nil =>
      have only : first = c := Option.some_inj.mp hc
      rw [only, lowerHere_of_isBlank h]
      rfl
    | cons next cs =>
      rw [List.getLast?_cons_cons] at hc
      have later := @ih (if isCaseIgnorable first then inWord else isCased first) hc
      rw [List.getLast?_append, Option.mem_def.mp later]
      rfl

theorem trim_of_trim_lower {s : String} (h : trim (lower s) = lower s) : trim s = s := by
  rw [trim_eq_self_iff, lower, String.toList_ofList] at h
  obtain ⟨first, last⟩ := strip_eq_self_iff.mp h
  rw [trim_eq_self_iff]
  refine strip_eq_self_iff.mpr ⟨fun c hc => ?_, fun c hc => ?_⟩
  · refine Bool.eq_false_iff.mpr fun blank => ?_
    exact absurd blank (Bool.eq_false_iff.mp (first c (head_lowerFrom_of_isBlank hc blank)))
  · refine Bool.eq_false_iff.mpr fun blank => ?_
    exact absurd blank (Bool.eq_false_iff.mp (last c (getLast_lowerFrom_of_isBlank hc blank)))

end Text

namespace Config

open Text

/-- The value of the last of these pairs whose key is stored like this one. -/
def lastValue? (pairs : List (String × String)) (key : String) : Option String :=
  ((pairs.filter fun p => keyOf p.1 = keyOf key).getLast?).map (·.2)

theorem lastValue?_concat (pairs : List (String × String)) (last : String × String)
    (key : String) : lastValue? (pairs ++ [last]) key =
      if keyOf key = keyOf last.1 then some last.2 else lastValue? pairs key := by
  by_cases h : keyOf key = keyOf last.1
  · simp [lastValue?, h]
  · simp [lastValue?, h, Ne.symm h]

variable (pairs : List (String × String)) (key : String)

theorem lookup_keyOf : (ofList pairs).entries.lookup (keyOf key) = lastValue? pairs key := by
  induction pairs using List.reverseRecOn with
  | nil => rfl
  | append_singleton pairs last ih =>
    rw [ofList_concat, insert, Keyed.lookup_place, ih, lastValue?_concat]

theorem lookup_eq_none_of_trim_ne (h : trim key ≠ key) :
    (ofList pairs).entries.lookup (lower key) = none := by
  rw [Option.eq_none_iff_forall_ne_some]
  intro value found
  have stored := stored_ofList pairs
  have entry := (Keyed.lookup_eq_some_iff stored.ascending).mp found
  have trimmed := stored.trim_key entry
  exact h (trim_of_trim_lower trimmed)

theorem get?_ofList :
    (ofList pairs).get? key = if trim key = key then lastValue? pairs key else none := by
  rw [get?]
  split
  · next trimmed => rw [← lookup_keyOf, keyOf, trimmed]
  · next padded => exact lookup_eq_none_of_trim_ne pairs key padded

theorem mem_entries_iff {x : String × String} :
    x ∈ (ofList pairs).entries ↔ keyOf x.1 = x.1 ∧ lastValue? pairs x.1 = some x.2 := by
  have stored := stored_ofList pairs
  rw [← lookup_keyOf]
  constructor
  · intro entry
    have settled := stored.settled x entry
    rw [settled]
    exact ⟨rfl, (Keyed.lookup_eq_some_iff stored.ascending).mpr entry⟩
  · rintro ⟨settled, found⟩
    rw [settled] at found
    exact (Keyed.lookup_eq_some_iff stored.ascending).mp found

/-- A configuration that was filled pair by pair. A trimmed key finds the value of the last pair
whose key is stored like it, and any other key finds nothing, even right after it was put in. The
entries are the stored keys in order, each once, with these values. -/
theorem last_insert_found :
    (∀ key, let found := if trim key = key then lastValue? pairs key else none
      (ofList pairs).get? key = found ∧
        ∀ default, (ofList pairs).flag key default = (found.map isTruthy).getD default) ∧
    (∀ key value, ((ofList pairs).insert key value).get? key =
      if trim key = key then some value else none) ∧
    Keyed.Ascending (ofList pairs).entries ∧
    ∀ x, x ∈ (ofList pairs).entries ↔ keyOf x.1 = x.1 ∧ lastValue? pairs x.1 = some x.2 := by
  refine ⟨fun key => ⟨get?_ofList pairs key, fun default => ?_⟩, fun key value => ?_,
    (stored_ofList pairs).ascending, fun x => mem_entries_iff pairs⟩
  · rw [flag, get?_ofList]
  · rw [← ofList_concat, get?_ofList, lastValue?_concat, if_pos rfl]

theorem padded_key_lost :
    lastValue? [(" Optional", "yes")] " Optional" = some "yes" ∧
      (ofList [(" Optional", "yes")]).get? " Optional" = none ∧
      (ofList [(" Optional", "yes")]).flag " Optional" false = false ∧
      (ofList [(" Optional", "yes")]).get? "Optional" = some "yes" := by
  decide +kernel

/-! Pairs that are sorted by their keys as written before they are put in. -/

section Sorted

variable {pairs key} {c : Config}

theorem insert_congr {other : String} (h : keyOf key = keyOf other) (value : String) :
    c.insert key value = c.insert other value := by
  rw [insert, insert, h]

theorem isTruthy_trim (s : String) : isTruthy (trim s) = isTruthy s := by
  rw [isTruthy, isTruthy, trim_trim]

theorem lastValue?_map (f : String → String) :
    lastValue? (pairs.map fun p => (p.1, f p.2)) key = (lastValue? pairs key).map f := by
  simp only [lastValue?, List.filter_map, List.getLast?_map, Option.map_map, Function.comp_def]

def storedUnder (key : String) (pairs : List (String × String)) : List (String × String) :=
  pairs.filter fun p => keyOf p.1 = keyOf key

theorem lastValue?_ofList (greatest : ∀ last ∈ (storedUnder key pairs).getLast?,
      ∀ p ∈ storedUnder key pairs, p.1 ≤ last.1) :
    lastValue? (Keyed.ofList pairs) key = lastValue? pairs key := by
  cases chosen : (storedUnder key pairs).getLast? with
  | none =>
    have nothing : storedUnder key pairs = [] := List.getLast?_eq_none_iff.mp chosen
    have sorted : storedUnder key (Keyed.ofList pairs) = [] := by
      rw [storedUnder, List.filter_eq_nil_iff] at nothing ⊢
      exact fun x hx => nothing x (Keyed.mem_of_mem_ofList hx)
    rw [storedUnder] at nothing sorted
    rw [lastValue?, lastValue?, nothing, sorted]
  | some last =>
    obtain ⟨front, split⟩ := List.getLast?_eq_some_iff.mp chosen
    have inside : last ∈ storedUnder key pairs := split ▸ List.mem_append_right _ List.mem_cons_self
    have alike := (List.mem_filter.mp inside).2
    have sameKey : (pairs.filter fun p => p.1 = last.1).getLast? = some last := by
      have narrowed : pairs.filter (fun p => p.1 = last.1) =
          (storedUnder key pairs).filter fun p => p.1 = last.1 := by
        rw [storedUnder, List.filter_filter]
        refine List.filter_congr fun p _ => ?_
        by_cases h : p.1 = last.1
        · rw [h, alike, Bool.and_true]
        · simp [h]
      rw [narrowed, split, List.filter_append, List.filter_singleton]
      simp
    have sorted : last ∈ storedUnder key (Keyed.ofList pairs) := by
      refine List.mem_filter.mpr ⟨?_, alike⟩
      rw [← Prod.mk.eta (p := last), ← Keyed.lookup_eq_some_iff (Keyed.ascending_ofList pairs),
        Keyed.lookup_ofList, sameKey]
      rfl
    have above : ∀ p ∈ storedUnder key (Keyed.ofList pairs), p.1 ≤ last.1 := by
      intro p hp
      obtain ⟨listed, stored⟩ := List.mem_filter.mp hp
      exact greatest last chosen p (List.mem_filter.mpr ⟨Keyed.mem_of_mem_ofList listed, stored⟩)
    have counts := Keyed.getLast?_filter_of_greatest (Keyed.ascending_ofList pairs) sorted above
    rw [storedUnder] at chosen
    rw [lastValue?, lastValue?, counts, chosen]

end Sorted

end Config
end FieldProcedure
