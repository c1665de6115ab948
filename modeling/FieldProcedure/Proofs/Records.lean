import FieldProcedure.Intake.Fields
import FieldProcedure.Proofs.Trees
import Mathlib.Data.List.Nodup
import Mathlib.Data.List.Forall2

/-! Typed values are read from the texts that say them. A record is read from an object in which
every field stands once or not at all, in any order and among any other members: each step of the
reading settles the field it reads and keeps the fields that are settled already. -/
namespace FieldProcedure

namespace Json.Script

def text? : Script → Option String
  | .token (.text l) => some l.text
  | _ => none

def int? : Script → Option Int
  | .token (.number n) => n.int?
  | _ => none

def under (names : List String) (members : List (String × Script)) : List Script :=
  (members.filter fun m => names.contains m.1).map (·.2)

/-- There is one value or none: what must hold if there is none, and of the one. -/
def Once (values : List Script) (absent : Prop) (present : Script → Prop) : Prop :=
  match values with
  | [] => absent
  | [v] => present v
  | _ => False

namespace Once

variable {values : List Script} {absent : Prop} {present : Script → Prop}

theorem none_or_mem (h : Once values absent present) :
    values = [] ∧ absent ∨ ∃ v ∈ values, present v := by
  match values, h with
  | [], h => exact .inl ⟨rfl, h⟩
  | [v], h => exact .inr ⟨v, List.mem_singleton_self v, h⟩

theorem of_mem (h : Once values absent present) {v : Script} (hv : v ∈ values) : present v := by
  match values, h with
  | [w], h => exact List.mem_singleton.mp hv ▸ h

theorem length_le_one (h : Once values absent present) : values.length ≤ 1 := by
  match values, h with
  | [], _ => exact Nat.zero_le 1
  | [_], _ => exact Nat.le_refl 1

end Once

theorem Once.imp {values : List Script} {absent absent' : Prop} {present present' : Script → Prop}
    (h : Once values absent present) (none : absent → absent') (one : ∀ v, present v → present' v) :
    Once values absent' present' := by
  match values, h with
  | [], h => exact none h
  | [v], h => exact one v h

end Json.Script

namespace Intake

open Json

variable {room : Nat} {α : Type} {read : Node → Except Fault α} {s : Script}

theorem yields_null : (Script.token .null).Yields room fun n => ∃ stop, n = .scalar .null stop :=
  Token.yields rfl

theorem yields_text {t : String} (h : s.text? = some t) :
    s.Yields room fun n => readText n = .ok t := by
  match s, h with
  | .token (.text l), h =>
    obtain rfl := Option.some_inj.mp h
    refine (Token.yields rfl).imp ?_
    rintro n ⟨stop, rfl⟩
    rfl

theorem yields_int {i : Int} (small : Number.isSigned64 i = true) (h : s.int? = some i) :
    s.Yields room fun n => readInt n = .ok i := by
  match s, h with
  | .token (.number m), h =>
    have word : isWord i = true := by
      have words : Number.twoTo 63 ≤ Number.twoTo 64 := by decide
      simp only [Number.isSigned64, isWord, Bool.and_eq_true, decide_eq_true_eq] at small ⊢
      omega
    have known : (Token.number m).scalar? = some (.int i) := by
      have h : m.int? = some i := h
      rw [Token.scalar?, h, Option.filter_some, if_pos word]
      rfl
    refine (Token.yields known).imp ?_
    rintro n ⟨stop, rfl⟩
    rw [readInt, if_pos small]

theorem readItems_ok {items : List Script} {its : Items} {as : List α}
    (trees : ItemsOf room items its)
    (h : List.Forall₂ (fun a s => Script.Yields room s fun n => read n = .ok a) as items) :
    readItems read its = .ok as := by
  induction h generalizing its with
  | nil =>
    cases its with
    | closed stop => rfl
    | item | broken => cases trees
  | cons first _ ih =>
    cases its with
    | closed | broken => cases trees
    | item start node nodes =>
      obtain ⟨tree, trees⟩ := trees
      rw [readItems, tree _ first, ih trees]
      rfl

theorem yields_list {gap : Gap} {items : Script.Items} {as : List α}
    (h : List.Forall₂ (fun a s => Script.Yields room s fun n => read n = .ok a) as items.toList) :
    (Script.array gap items).Yields (room + 1) fun n => readList read n = .ok as := by
  have readable : ∀ s ∈ items.toList, ∃ P, s.Yields room P := by
    intro s hs
    obtain ⟨i, hi, rfl⟩ := List.getElem_of_mem hs
    exact ⟨_, h.get (h.length_eq ▸ hi) hi⟩
  refine (Script.yields_array gap readable).imp ?_
  rintro n ⟨start, its, rfl, trees⟩
  exact readItems_ok trees h

theorem yields_or {default a : α} (nullIs : ∀ stop, read (.scalar .null stop) = .ok a → a = default)
    (h : s = .token .null ∧ a = default ∨ s.Yields room fun n => read n = .ok a) :
    s.Yields room fun n => readOr default read n = .ok a := by
  rcases h with ⟨rfl, rfl⟩ | yields
  · refine yields_null.imp ?_
    rintro n ⟨stop, rfl⟩
    rfl
  · refine yields.imp fun n reads => ?_
    by_cases null : ∃ stop, n = .scalar .null stop
    · obtain ⟨stop, rfl⟩ := null
      rw [readOr, nullIs stop reads]
    · rw [readOr]
      · exact reads
      · exact fun stop same => null ⟨stop, same⟩

/-! Records. -/

section Shape

variable {φ δ : Type} [BEq φ] [LawfulBEq φ] (shape : Shape φ) (set : φ → Node → δ → Except Fault δ)
  (settled : φ → δ → Prop)

/-- This tree settles the field in any draft, which keeps the fields that are settled already. -/
def Settles (f : φ) (n : Node) : Prop :=
  ∀ draft, ∃ draft', set f n draft = .ok draft' ∧ settled f draft' ∧
    ∀ g, settled g draft → settled g draft'

def Shape.present (members : List (String × Script)) : List φ :=
  members.filterMap fun m => shape.field? m.1

variable {shape set settled} {members : List (String × Script)}

theorem checkSeen_ok {seen : List φ} (h : ∀ f ∈ shape.fields, shape.required f = true → f ∈ seen)
    (stop : Place) : shape.checkSeen seen stop = .ok () := by
  have none : shape.fields.find? (fun f => shape.required f && !seen.contains f) = none := by
    rw [List.find?_eq_none]
    intro f hf
    simp only [Bool.and_eq_true, Bool.not_eq_true', List.contains_eq_mem, decide_eq_false_iff_not,
      not_and, not_not]
    exact h f hf
  rw [Shape.checkSeen, none]

theorem readMembers_settles {ms : Members} {seen : List φ} {draft : δ}
    (trees : MembersOf room members ms)
    (fits : ∀ m ∈ members, ∀ f, shape.field? m.1 = some f →
      m.2.Yields room (Settles set settled f))
    (once : (seen ++ shape.present members).Nodup)
    (complete : ∀ f, settled f draft ∨ f ∈ shape.present members)
    (required : ∀ f ∈ shape.fields, shape.required f = true →
      f ∈ seen ∨ f ∈ shape.present members) :
    ∃ final, shape.readMembers set seen draft ms = .ok final ∧ ∀ f, settled f final := by
  induction members generalizing ms seen draft with
  | nil =>
    cases ms with
    | member | broken => cases trees
    | closed stop =>
      have seenAll : ∀ f ∈ shape.fields, shape.required f = true → f ∈ seen :=
        fun f hf needed => (required f hf needed).resolve_right List.not_mem_nil
      refine ⟨draft, ?_, fun f => (complete f).resolve_right List.not_mem_nil⟩
      rw [Shape.readMembers, checkSeen_ok seenAll]
      rfl
  | cons m rest ih =>
    cases ms with
    | closed | broken => cases trees
    | member name spot node nodes =>
      obtain ⟨rfl, tree, trees⟩ := trees
      obtain ⟨first, later⟩ := List.forall_mem_cons.mp fits
      rw [Shape.readMembers]
      cases known : shape.field? m.1 with
      | none =>
        have present : shape.present (m :: rest) = shape.present rest :=
          List.filterMap_cons_none known
        rw [present] at once complete required
        exact ih trees later once complete required
      | some f =>
        have present : shape.present (m :: rest) = f :: shape.present rest :=
          List.filterMap_cons_some known
        rw [present] at once complete required
        have moved := List.perm_middle.nodup_iff.mp once
        have new : seen.contains f = false := by
          rw [List.contains_eq_mem, decide_eq_false_iff_not]
          exact fun old => (List.nodup_cons.mp moved).1 (List.mem_append_left _ old)
        obtain ⟨draft', sets, here, keeps⟩ := tree _ (first f known) draft
        dsimp only
        rw [new, sets]
        refine ih trees later moved (fun g => ?_) (fun g hg needed => ?_)
        · rcases complete g with done | ahead
          · exact .inl (keeps g done)
          · rcases List.mem_cons.mp ahead with rfl | ahead
            · exact .inl here
            · exact .inr ahead
        · rcases required g hg needed with old | ahead
          · exact .inl (List.mem_cons_of_mem _ old)
          · rcases List.mem_cons.mp ahead with rfl | ahead
            · exact .inl List.mem_cons_self
            · exact .inr ahead

omit [BEq φ] [LawfulBEq φ] in
theorem mem_keys_of_field? {key : String} {f : φ} (h : shape.field? key = some f) :
    (shape.keys f).contains key = true := by
  have found := List.find?_some h
  exact found

theorem count_present_le (f : φ) :
    (shape.present members).count f ≤ (Script.under (shape.keys f) members).length := by
  rw [Shape.present, List.count_filterMap, Script.under, List.length_map,
    ← List.countP_eq_length_filter]
  refine List.countP_mono_left fun m _ here => ?_
  exact mem_keys_of_field? (LawfulBEq.eq_of_beq here)

/-- A record is read whole if every field stands at most once, its value settles it, and it may be
missing if it does not stand there. -/
theorem yields_record (gap : Gap) (members : Script.Members) (draft : δ)
    (known : ∀ f, ∀ key ∈ shape.keys f, shape.field? key = some f)
    (fields : ∀ f, Script.Once (Script.under (shape.keys f) members.toList)
      (settled f draft ∧ shape.required f = false) (·.Yields room (Settles set settled f))) :
    (Script.object gap members).Yields (room + 1) fun n =>
      ∃ final, shape.read set draft n = .ok final ∧ ∀ f, settled f final := by
  have here_or (f : φ) : settled f draft ∧ shape.required f = false ∨
      f ∈ shape.present members.toList := by
    rcases (fields f).none_or_mem with ⟨-, absent⟩ | ⟨v, hv, -⟩
    · exact .inl absent
    · obtain ⟨m, hm, rfl⟩ := List.mem_map.mp hv
      obtain ⟨inside, key⟩ := List.mem_filter.mp hm
      exact .inr (List.mem_filterMap.mpr ⟨m, inside, known f m.1 (List.contains_iff_mem.mp key)⟩)
  refine (Script.yields_object gap members).imp ?_
  rintro n ⟨start, ms, rfl, trees⟩
  refine readMembers_settles trees (fun m hm f found => ?_) ?_
    (fun f => (here_or f).imp_left And.left)
    fun f _ needed => .inr ((here_or f).resolve_left fun absent => ?_)
  · refine (fields f).of_mem (List.mem_map.mpr ⟨m, List.mem_filter.mpr ⟨hm, ?_⟩, rfl⟩)
    exact mem_keys_of_field? found
  · rw [List.nil_append, List.nodup_iff_count_le_one]
    exact fun f => Nat.le_trans (count_present_le f) (fields f).length_le_one
  · rw [absent.2] at needed
    cases needed

end Shape

end Intake
end FieldProcedure
