import FieldProcedure.Step.Config
import FieldProcedure.Proofs.Casing
import Mathlib.Data.String.Basic

/-! Configurations as maps. Whatever was put into a configuration, its keys ascend and are in the
form in which keys are stored, and a configuration is what its own entries make. -/
namespace FieldProcedure

namespace Keyed

variable {α : Type} {key : String} {value : α} {entries : List (String × α)} {x : String × α}

def Ascending (entries : List (String × α)) : Prop := entries.Pairwise fun x y => x.1 < y.1

theorem mem_of_mem_place (h : x ∈ place key value entries) : x = (key, value) ∨ x ∈ entries := by
  induction entries with
  | nil => exact .inl (List.mem_singleton.mp h)
  | cons first rest ih =>
    obtain ⟨k, v⟩ := first
    rw [place] at h
    split at h
    · exact (List.mem_cons.mp h).imp_right (List.mem_cons_of_mem _)
    · split at h
      · exact List.mem_cons.mp h
      · rcases List.mem_cons.mp h with rfl | h
        · exact .inr List.mem_cons_self
        · exact (ih h).imp_right (List.mem_cons_of_mem _)

theorem ascending_place (h : Ascending entries) : Ascending (place key value entries) := by
  induction entries with
  | nil => exact List.pairwise_singleton _ _
  | cons first rest ih =>
    obtain ⟨k, v⟩ := first
    obtain ⟨above, rest_ascending⟩ := List.pairwise_cons.mp h
    rw [place]
    split
    · next same =>
      rw [same]
      exact List.pairwise_cons.mpr ⟨above, rest_ascending⟩
    · next other =>
      split
      · next below =>
        refine List.pairwise_cons.mpr ⟨fun x hx => ?_, h⟩
        rcases List.mem_cons.mp hx with rfl | hx
        · exact below
        · exact below.trans (above x hx)
      · next beyond =>
        refine List.pairwise_cons.mpr ⟨fun x hx => ?_, ih rest_ascending⟩
        rcases mem_of_mem_place hx with rfl | hx
        · exact lt_of_le_of_ne (not_lt.mp beyond) (Ne.symm other)
        · exact above x hx

theorem place_last (h : ∀ x ∈ entries, x.1 < key) :
    place key value entries = entries ++ [(key, value)] := by
  induction entries with
  | nil => rfl
  | cons first rest ih =>
    obtain ⟨below, later⟩ := List.forall_mem_cons.mp h
    rw [place, if_neg below.ne', if_neg below.not_gt, ih later, List.cons_append]

end Keyed

namespace Config

open Text

variable {c : Config} {pairs : List (String × String)} {x : String × String}

theorem trim_keyOf (s : String) : trim (keyOf s) = keyOf s := by
  simp only [keyOf, lower, trim, String.toList_ofList, strip_lowerFrom (strip_strip s.toList)]

theorem keyOf_keyOf (s : String) : keyOf (keyOf s) = keyOf s :=
  calc keyOf (keyOf s) = lower (keyOf s) := by rw [keyOf, trim_keyOf]
    _ = keyOf s := lower_lower (trim s)

theorem mem_of_mem_keyOf {s : String} {mark : Char} (hm : ¬Plain mark)
    (h : mark ∈ (keyOf s).toList) : mark ∈ s.toList := by
  rw [keyOf, lower, String.toList_ofList] at h
  have kept := (mem_or_plain_of_mem_lowerFrom h).resolve_right hm
  rw [trim, String.toList_ofList] at kept
  exact (strip_sublist s.toList).mem kept

theorem ofList_concat (pairs : List (String × String)) (key value : String) :
    ofList (pairs ++ [(key, value)]) = (ofList pairs).insert key value := by
  simp only [ofList, List.foldl_append, List.foldl_cons, List.foldl_nil]

theorem mem_ofList (h : x ∈ (ofList pairs).entries) : ∃ p ∈ pairs, x = (keyOf p.1, p.2) := by
  induction pairs using List.reverseRecOn with
  | nil => cases h
  | append_singleton pairs last ih =>
    rw [ofList_concat] at h
    rcases Keyed.mem_of_mem_place h with rfl | h
    · exact ⟨last, List.mem_append_right _ (List.mem_singleton_self _), rfl⟩
    · obtain ⟨p, hp, rfl⟩ := ih h
      exact ⟨p, List.mem_append_left _ hp, rfl⟩

structure Stored (c : Config) : Prop where
  ascending : Keyed.Ascending c.entries
  settled : ∀ x ∈ c.entries, keyOf x.1 = x.1

theorem stored_ofList (pairs : List (String × String)) : (ofList pairs).Stored where
  ascending := by
    induction pairs using List.reverseRecOn with
    | nil => exact List.Pairwise.nil
    | append_singleton pairs last ih =>
      rw [ofList_concat]
      exact Keyed.ascending_place ih
  settled x hx := by
    obtain ⟨p, -, rfl⟩ := mem_ofList hx
    exact keyOf_keyOf p.1

theorem Stored.trim_key (h : c.Stored) (hx : x ∈ c.entries) : trim x.1 = x.1 := by
  rw [← h.settled x hx, trim_keyOf]

theorem Stored.ofList_entries (h : c.Stored) : ofList c.entries = c := by
  obtain ⟨entries⟩ := c
  obtain ⟨ascending, settled⟩ := h
  induction entries using List.reverseRecOn with
  | nil => rfl
  | append_singleton entries last ih =>
    obtain ⟨former, -, below⟩ := List.pairwise_append.mp ascending
    have first : ofList entries = ⟨entries⟩ :=
      ih former fun x hx => settled x (List.mem_append_left _ hx)
    have key : keyOf last.1 = last.1 :=
      settled last (List.mem_append_right _ (List.mem_singleton_self _))
    rw [ofList_concat, first, insert, key, Keyed.place_last]
    exact fun x hx => below x hx last (List.mem_singleton_self _)

theorem stored_iff : c.Stored ↔ ∃ pairs, ofList pairs = c := by
  constructor
  · exact fun h => ⟨c.entries, h.ofList_entries⟩
  · rintro ⟨pairs, rfl⟩
    exact stored_ofList pairs

end Config
end FieldProcedure
