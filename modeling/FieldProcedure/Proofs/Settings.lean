import FieldProcedure.Intake.Nested
import FieldProcedure.Proofs.Lookups
import FieldProcedure.Proofs.Records
import FieldProcedure.Proofs.Rereading

/-! The same settings from a cell and from JSON. A cell puts them in one by one, so of several that
are stored under one key the last counts. From JSON they are first sorted by their keys as written,
so the one with the greatest such key counts, wherever it stands. -/
namespace FieldProcedure

namespace Intake

open Json Text

variable {room record : Nat} {pairs : List (String × String)}

/-! The cell. -/

structure IsPair (x : String × String) : Prop where
  colon : ':' ∉ x.1.toList
  single : ';' ∉ x.1.toList
  value : ';' ∉ x.2.toList

instance (x : String × String) : Decidable (IsPair x) :=
  decidable_of_iff (':' ∉ x.1.toList ∧ ';' ∉ x.1.toList ∧ ';' ∉ x.2.toList)
    ⟨fun ⟨colon, single, value⟩ => ⟨colon, single, value⟩, fun h => ⟨h.colon, h.single, h.value⟩⟩

theorem strip_settingItem (x : String × String) : strip (settingItem x).toList =
    x.1.toList.dropWhile isBlank ++ ':' :: dropEndWhile isBlank x.2.toList := by
  rw [toList_settingItem, strip_around (by decide)]

theorem items_settings (h : ∀ x ∈ pairs, IsPair x) : items (listed (pairs.map settingItem)) =
    pairs.map fun x => strip (settingItem x).toList := by
  rw [items_listed_strip, List.map_map]
  · rfl
  · refine List.forall_mem_map.mpr fun x hx => ?_
    have pair := h x hx
    rw [toList_settingItem, List.mem_append, List.mem_cons, not_or, not_or]
    exact ⟨pair.single, by decide, pair.value⟩
  · refine List.forall_mem_map.mpr fun x _ => ?_
    rw [strip_settingItem]
    simp

theorem parseConfig_pairs (before : List (String × String)) (h : ∀ x ∈ pairs, IsPair x) :
    parseConfig record (Config.ofList before) (pairs.map fun x => strip (settingItem x).toList) =
      .ok (Config.ofList (before ++ pairs.map fun x => (x.1, trim x.2))) := by
  induction pairs generalizing before with
  | nil => rw [List.map_nil, List.map_nil, List.append_nil]; rfl
  | cons x pairs ih =>
    obtain ⟨first, later⟩ := List.forall_mem_cons.mp h
    have colon : ':' ∉ x.1.toList.dropWhile isBlank :=
      fun inside => first.colon ((List.dropWhile_sublist _).mem inside)
    have key : Config.keyOf (String.ofList (x.1.toList.dropWhile isBlank)) = Config.keyOf x.1 := by
      rw [Config.keyOf, trim, String.toList_ofList, strip_dropWhile, Config.keyOf, trim]
    have value : String.ofList (strip (dropEndWhile isBlank x.2.toList)) = trim x.2 := by
      rw [strip_dropEndWhile, trim]
    rw [List.map_cons, strip_settingItem, parseConfig, splitFirst?_append colon]
    dsimp only
    rw [value, Config.insert_congr key, ← Config.ofList_concat, ih _ later, List.append_assoc,
      List.map_cons, List.singleton_append]

/-! The object. -/

def Spells (members : List (String × Script)) (pairs : List (String × String)) : Prop :=
  (members.map fun m => (m.1, m.2.text?)) = pairs.map fun x => (x.1, some x.2)

instance (members : List (String × Script)) (pairs : List (String × String)) :
    Decidable (Spells members pairs) := inferInstanceAs (Decidable (_ = _))

theorem yields_value {s : Script} {t : String} (h : s.text? = some t) :
    s.Yields room fun n => n.value = .ok (Json.ofText t) := by
  match s, h with
  | .token (.text l), h =>
    obtain rfl := Option.some_inj.mp h
    refine (Token.yields rfl).imp ?_
    rintro n ⟨stop, rfl⟩
    rfl

theorem values_texts {members : List (String × Script)} {ms : Members}
    (trees : MembersOf room members ms) (spelt : Spells members pairs)
    (before : List (String × Json)) : ms.values before =
      .ok (pairs.foldl (fun entries x => Keyed.place x.1 (Json.ofText x.2) entries) before) := by
  induction members generalizing ms pairs before with
  | nil =>
    obtain rfl := List.map_eq_nil_iff.mp spelt.symm
    cases ms with
    | closed stop => rfl
    | member | broken => cases trees
  | cons m members ih =>
    obtain ⟨x, rest, rfl, first, later⟩ := List.map_eq_cons_iff.mp spelt.symm
    obtain ⟨key, text⟩ := Prod.mk.inj first
    cases ms with
    | closed | broken => cases trees
    | member name spot node nodes =>
      obtain ⟨rfl, tree, trees⟩ := trees
      have value : node.value = .ok (Json.ofText x.2) := tree _ (yields_value text.symm)
      rw [List.foldl_cons, ← key, ← ih trees later.symm]
      rw [Members.values, value]
      rfl

theorem yields_config {gap : Gap} {members : Script.Members} (spelt : Spells members.toList pairs) :
    (Script.object gap members).Yields (room + 1) fun n =>
      readConfig n = .ok (Config.ofList (Keyed.ofList pairs)) := by
  refine (Script.yields_object gap members).imp ?_
  rintro n ⟨start, ms, rfl, trees⟩
  have sorted : pairs.foldl (fun entries x => Keyed.place x.1 (Json.ofText x.2) entries) [] =
      Keyed.ofList (pairs.map fun x => (x.1, Json.ofText x.2)) := by
    rw [Keyed.ofList, List.foldl_map]
  have texts : (Keyed.ofList (pairs.map fun x => (x.1, Json.ofText x.2))).map
      (fun x => (x.1, configText x.2)) = Keyed.ofList pairs := by
    rw [Keyed.map_ofList, List.map_map]
    exact congrArg Keyed.ofList (List.map_id' pairs)
  rw [readConfig, values_texts trees spelt, sorted]
  exact congrArg (fun values => Except.ok (Config.ofList values)) texts

/-! Both. -/

/-- The settings of a cell and of an object with the same pairs. In the cell the last of the pairs
that are stored under a flag counts; from the object the last once they are sorted by their keys as
written. The two agree on a flag if the pair that is written last has the greatest key. -/
theorem settings_from_either_format (h : ∀ x ∈ pairs, IsPair x) {members : Script.Members}
    (spelt : Spells members.toList pairs) (record : Nat) (origin : Origin)
    (before gap after : Gap) : ∃ cell object : Config,
      parseConfig record {} (items (listed (pairs.map settingItem))) = .ok cell ∧
      (Document.read maxDepth origin (before.octets ++
        ((Script.object gap members).octets ++ after.octets))).decode readConfig = .ok object ∧
      ∀ flag default, trim flag = flag →
        cell.flag flag default =
          ((Config.lastValue? pairs flag).map isTruthy).getD default ∧
        object.flag flag default =
          ((Config.lastValue? (Keyed.ofList pairs) flag).map isTruthy).getD default ∧
        ((∀ last ∈ (Config.storedUnder flag pairs).getLast?,
          ∀ x ∈ Config.storedUnder flag pairs, x.1 ≤ last.1) →
            object.flag flag default = cell.flag flag default) := by
  refine ⟨Config.ofList (pairs.map fun x => (x.1, trim x.2)), _, ?_,
    Document.decode_read (yields_config spelt) origin before after, ?_⟩
  · rw [items_settings h]
    exact parseConfig_pairs [] h
  · intro flag default trimmed
    have values : (Config.lastValue? (pairs.map fun x => (x.1, trim x.2)) flag).map isTruthy =
        (Config.lastValue? pairs flag).map isTruthy := by
      simp only [Config.lastValue?_map, Option.map_map, Function.comp_def, Config.isTruthy_trim]
    have cell : (Config.ofList (pairs.map fun x => (x.1, trim x.2))).flag flag default =
        ((Config.lastValue? pairs flag).map isTruthy).getD default := by
      rw [Config.flag, Config.get?_ofList, if_pos trimmed, values]
    have object : (Config.ofList (Keyed.ofList pairs)).flag flag default =
        ((Config.lastValue? (Keyed.ofList pairs) flag).map isTruthy).getD default := by
      rw [Config.flag, Config.get?_ofList, if_pos trimmed]
    refine ⟨cell, object, fun greatest => ?_⟩
    rw [cell, object, Config.lastValue?_ofList greatest]

def sealSettings : List (String × String) :=
  [(" Optional", "yes "), ("form", "no"), ("FORM", "yes")]

def sealMembers : List (String × Script) := sealSettings.map fun x => (x.1, .ofText x.2)

theorem sealSettings_read : (∀ x ∈ sealSettings, IsPair x) ∧
    Spells (Script.Members.ofList sealMembers).toList sealSettings ∧ ∃ cell object : Config,
      parseConfig 1 {} (items (listed (sealSettings.map settingItem))) = .ok cell ∧
      (Document.read maxDepth .text
        (Script.object .none (.ofList sealMembers)).octets).decode readConfig = .ok object ∧
      cell.flag "optional" false = true ∧ object.flag "optional" false = true ∧
      cell.flag "form" false = true ∧ object.flag "form" true = false := by
  have pairs : ∀ x ∈ sealSettings, IsPair x := by decide +kernel
  have spelt : Spells (Script.Members.ofList sealMembers).toList sealSettings := by decide +kernel
  have read := settings_from_either_format pairs spelt 1 .text .none .none .none
  obtain ⟨cell, object, fromCell, fromObject, flags⟩ := read
  have optional := flags "optional" false (by decide +kernel)
  have form (default : Bool) := flags "form" default (by decide +kernel)
  refine ⟨pairs, spelt, cell, object, fromCell, ?_, optional.1.trans ?_, optional.2.1.trans ?_,
    (form false).1.trans ?_, (form true).2.1.trans ?_⟩
  · rwa [Gap.none, List.nil_append, List.append_nil] at fromObject
  all_goals decide +kernel

theorem later_setting_lost :
    parseConfig 1 {} (items (listed [settingItem ("form", "no"), settingItem ("FORM", "yes")])) =
      .ok ⟨[("form", "yes")]⟩ ∧
    (Document.read maxDepth .text
      (Utf8.encode "\x7b\"form\":\"no\",\"FORM\":\"yes\"\x7d")).decode readConfig =
      .ok ⟨[("form", "no")]⟩ ∧
    Config.flag ⟨[("form", "yes")]⟩ "form" false = true ∧
    Config.flag ⟨[("form", "no")]⟩ "form" false = false := by
  decide +kernel

end Intake
end FieldProcedure
