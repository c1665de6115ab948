import FieldProcedure.Intake.Row
import FieldProcedure.Proofs.Configs
import FieldProcedure.Proofs.Digits
import FieldProcedure.Proofs.Splitting
import FieldProcedure.Proofs.Tables

/-! Entries written as rows. Reading a row that was written gives back its entry, as far as the
entry can be written in cells at all; and every entry that was read from a row can be. -/
namespace FieldProcedure.Intake

open Text

variable {e : Entry} {cell column : String} {record : Nat} {n : Int}

theorem plain_of_isDigit {c : Char} (h : c.isDigit = true) : Plain c := by
  have digit := Number.isDigit_iff.mp h
  refine plain_of_apart ?_
  simp only [offLimits, List.forall_mem_cons, List.not_mem_nil, false_imp_iff, implies_true,
    and_true]
  omega

theorem plain_of_mem_toString {c : Char} (h : c ∈ (toString n).toList) : Plain c := by
  rcases Number.eq_minus_or_isDigit_of_mem_toString h with rfl | digit
  · unfold Plain
    decide
  · exact plain_of_isDigit digit

theorem strip_toString (n : Int) : strip (toString n).toList = (toString n).toList :=
  strip_of_no_blanks fun _ hc => (plain_of_mem_toString hc).1

theorem toString_filled (n : Int) : isAllBlank (toString n) = false := by
  refine Bool.eq_false_iff.mpr fun blank => ?_
  have empty := trim_eq_empty.mpr blank
  rw [trim_eq_self_iff.mpr (strip_toString n)] at empty
  have number := Number.readInt?_toString n
  rw [empty] at number
  cases number

/-! Numbers: the text of a number is its own cell. -/

theorem parseInteger_toString (h : Number.isSigned64 n = true) :
    parseInteger record column (toString n) = .ok n := by
  simp only [parseInteger, strip_toString, integerOf, Number.readInt?_toString, Option.filter_some,
    h, if_true]

theorem isSigned64_of_parseInteger (h : parseInteger record column cell = .ok n) :
    Number.isSigned64 n = true := by
  rw [parseInteger] at h
  split at h
  · next m read =>
    cases h
    rw [integerOf] at read
    split at read
    · next m exact =>
      cases read
      exact (Option.mem_filter_iff.mp exact).2
    · split at read
      · cases read
      · split at read
        · next m _ small =>
          cases read
          exact small
        · cases read
  · cases h

/-! Lists: items that are trimmed, not empty and free of semicolons are told apart in a cell. -/

structure IsItem (cs : List Char) : Prop where
  trimmed : strip cs = cs
  filled : cs ≠ []
  single : ';' ∉ cs

theorem isItem_of_mem_items {item : List Char} (h : item ∈ items cell) : IsItem item := by
  obtain ⟨listed, filled⟩ := List.mem_filter.mp h
  obtain ⟨part, split, rfl⟩ := List.mem_map.mp listed
  exact {
    trimmed := strip_strip part
    filled := by simpa using filled
    single := fun mark => (of_mem_splitAll split ((strip_sublist part).mem mark)).2 rfl }

def listed (texts : List String) : String := ";".intercalate texts

theorem items_listed_strip {texts : List String} (single : ∀ t ∈ texts, ';' ∉ t.toList)
    (filled : ∀ t ∈ texts, strip t.toList ≠ []) :
    items (listed texts) = texts.map fun t => strip t.toList := by
  cases texts with
  | nil => rfl
  | cons first rest =>
    have split : splitAll ';' (listed (first :: rest)).toList =
        (first :: rest).map String.toList := by
      rw [splitAll_eq_splitOn, listed, String.toList_intercalate]
      exact List.splitOn_intercalate _ (List.forall_mem_map.mpr single) (by simp)
    rw [items, split, List.map_map]
    exact List.filter_eq_self.mpr (List.forall_mem_map.mpr fun t ht => by simpa using filled t ht)

theorem items_listed {texts : List String} (h : ∀ t ∈ texts, IsItem t.toList) :
    items (listed texts) = texts.map String.toList := by
  have trimmed (t : String) (ht : t ∈ texts) : strip t.toList = t.toList := (h t ht).trimmed
  rw [items_listed_strip (fun t ht => (h t ht).single)
    fun t ht => by rw [trimmed t ht]; exact (h t ht).filled]
  exact List.map_congr_left trimmed

theorem items_of_isAllBlank (h : isAllBlank cell = true) : items cell = [] := by
  refine List.filter_eq_nil_iff.mpr fun item trimmed => ?_
  obtain ⟨part, split, rfl⟩ := List.mem_map.mp trimmed
  have blank : ∀ c ∈ part, isBlank c = true := fun c hc =>
    List.all_eq_true.mp h c (of_mem_splitAll split hc).1
  have empty : strip part = [] := by
    rw [strip, List.dropWhile_eq_nil_iff.mpr blank]
    rfl
  simp [empty]

theorem items_filled (cell : Option String) :
    ((filled cell).map items).getD [] = (cell.map items).getD [] := by
  cases cell with
  | none => rfl
  | some cell =>
    rw [filled, Option.filter_some]
    split
    · rfl
    · next blank => simp [items_of_isAllBlank (by simpa using blank)]

/-! Paths, which are cut at their last colon. -/

def pathItem (p : Path) : String := p.label ++ ":" ++ toString p.target

theorem toList_pathItem (p : Path) :
    (pathItem p).toList = p.label.toList ++ ':' :: (toString p.target).toList := by
  simp [pathItem]

/-- A path that an item of a cell can hold. Its label may hold colons, since the last one in the
item ends it. -/
structure IsPath (p : Path) : Prop where
  target : Number.isSigned64 p.target = true
  trimmed : trim p.label = p.label
  single : ';' ∉ p.label.toList

theorem IsPath.isItem {p : Path} (h : IsPath p) : IsItem (pathItem p).toList := by
  rw [toList_pathItem]
  refine ⟨?_, by simp, ?_⟩
  · exact strip_append_cons (trim_eq_self_iff.mp h.trimmed) (strip_toString p.target) (by decide)
  · rw [List.mem_append, List.mem_cons, not_or, not_or]
    exact ⟨h.single, by decide, fun mark => (plain_of_mem_toString mark).2.2 rfl⟩

theorem IsPath.parsePath {p : Path} (h : IsPath p) :
    parsePath record (pathItem p).toList = .ok p := by
  have colon : ':' ∉ (toString p.target).toList := fun mark => (plain_of_mem_toString mark).2.1 rfl
  rw [Intake.parsePath, toList_pathItem, splitLast?_append colon]
  simp only [Option.getD_some, String.ofList_toList, parseInteger_toString h.target]
  exact congrArg Except.ok (congrArg (Path.mk p.target) h.trimmed)

theorem isPath_of_parsePath {item : List Char} {p : Path} (hi : IsItem item)
    (h : parsePath record item = .ok p) : IsPath p := by
  obtain ⟨target, read, same⟩ := bind_ok.mp h
  cases same
  refine ⟨isSigned64_of_parseInteger read, trim_ofList_strip _, ?_⟩
  rw [String.toList_ofList]
  intro mark
  have label := (strip_sublist _).mem mark
  cases split : splitLast? ':' item with
  | none =>
    rw [split] at label
    cases label
  | some parts =>
    obtain ⟨before, after⟩ := parts
    obtain ⟨rfl, -⟩ := of_splitLast? split
    rw [split] at label
    exact hi.single (List.mem_append_left _ label)

theorem parsePaths_pathItems {paths : List Path} (h : ∀ p ∈ paths, IsPath p) :
    parsePaths record ((paths.map pathItem).map String.toList) = .ok paths := by
  induction paths with
  | nil => rfl
  | cons p paths ih =>
    obtain ⟨first, later⟩ := List.forall_mem_cons.mp h
    simp only [List.map_cons, parsePaths, first.parsePath, ih later]
    rfl

theorem isPath_of_parsePaths {texts : List (List Char)} {paths : List Path}
    (hi : ∀ item ∈ texts, IsItem item) (h : parsePaths record texts = .ok paths) :
    ∀ p ∈ paths, IsPath p := by
  induction texts generalizing paths with
  | nil =>
    cases h
    exact fun p hp => absurd hp List.not_mem_nil
  | cons item texts ih =>
    obtain ⟨hitem, htexts⟩ := List.forall_mem_cons.mp hi
    obtain ⟨p, first, h⟩ := bind_ok.mp h
    obtain ⟨later, rest, same⟩ := bind_ok.mp h
    cases same
    exact List.forall_mem_cons.mpr ⟨isPath_of_parsePath hitem first, ih htexts rest⟩

/-! The configuration, whose entries are cut at their first colon. -/

def settingItem (x : String × String) : String := x.1 ++ ":" ++ x.2

theorem toList_settingItem (x : String × String) :
    (settingItem x).toList = x.1.toList ++ ':' :: x.2.toList := by
  simp [settingItem]

/-- An entry of a configuration that an item of a cell can hold. The first colon ends its key, so
only the value may hold others. -/
structure IsSetting (x : String × String) : Prop where
  colon : ':' ∉ x.1.toList
  single : ';' ∉ x.1.toList
  trimmed : trim x.2 = x.2
  value : ';' ∉ x.2.toList

theorem IsSetting.isItem {x : String × String} (h : IsSetting x) (hk : trim x.1 = x.1) :
    IsItem (settingItem x).toList := by
  rw [toList_settingItem]
  refine ⟨?_, by simp, ?_⟩
  · exact strip_append_cons (trim_eq_self_iff.mp hk) (trim_eq_self_iff.mp h.trimmed) (by decide)
  · rw [List.mem_append, List.mem_cons, not_or, not_or]
    exact ⟨h.single, by decide, h.value⟩

theorem parseConfig_settingItems (before : List (String × String))
    {after : List (String × String)} (h : ∀ x ∈ after, IsSetting x) :
    parseConfig record (Config.ofList before) ((after.map settingItem).map String.toList) =
      .ok (Config.ofList (before ++ after)) := by
  induction after generalizing before with
  | nil => rw [List.append_nil]; rfl
  | cons x after ih =>
    obtain ⟨first, later⟩ := List.forall_mem_cons.mp h
    have value : String.ofList (strip x.2.toList) = x.2 := first.trimmed
    simp only [List.map_cons, parseConfig, toList_settingItem, splitFirst?_append first.colon,
      String.ofList_toList, value]
    rw [← Config.ofList_concat, ih _ later, List.append_assoc, List.singleton_append]

theorem exists_ofList_of_parseConfig (before : List (String × String)) {texts : List (List Char)}
    {c : Config} (hi : ∀ item ∈ texts, IsItem item)
    (h : parseConfig record (Config.ofList before) texts = .ok c) :
    ∃ after, c = Config.ofList (before ++ after) ∧ ∀ x ∈ after, IsSetting x := by
  induction texts generalizing before with
  | nil =>
    cases h
    exact ⟨[], by rw [List.append_nil], fun x hx => absurd hx List.not_mem_nil⟩
  | cons item texts ih =>
    obtain ⟨hitem, htexts⟩ := List.forall_mem_cons.mp hi
    rw [parseConfig] at h
    split at h
    · cases h
    · next key value split =>
      obtain ⟨rfl, colon⟩ := of_splitFirst? split
      rw [← Config.ofList_concat] at h
      obtain ⟨after, rfl, settings⟩ := ih _ htexts h
      refine ⟨_ :: after, by rw [List.append_assoc, List.singleton_append],
        List.forall_mem_cons.mpr ⟨?_, settings⟩⟩
      have single := hitem.single
      rw [List.mem_append, List.mem_cons, not_or, not_or] at single
      exact {
        colon := by rwa [String.toList_ofList]
        single := by rw [String.toList_ofList]; exact single.1
        trimmed := trim_ofList_strip value
        value := by
          rw [String.toList_ofList]
          exact fun mark => single.2.2 ((strip_sublist value).mem mark) }

/-! Whole rows. -/

def parseParent (record : Nat) (cell : Option String) : Except InputError (Option Int) :=
  match filled cell with
  | some cell => some <$> parseInteger record "Parent" cell
  | none => pure none

theorem Row.entry_ok_iff {r : Row} : r.entry record = .ok e ↔
    parseInteger record "StepIndex" r.index = .ok e.step.index ∧
      parseParent record r.parent = .ok e.parent ∧
      parsePaths record ((r.paths.map items).getD []) = .ok e.step.paths ∧
      parseConfig record {} ((r.config.map items).getD []) = .ok e.step.config ∧
      e.step.id = filled r.id ∧
      e.step.title = r.title.getD "" ∧
      e.step.description = r.description.getD "" ∧
      e.step.tag = r.tag.getD "" ∧
      e.step.kind = (r.kind.map Kind.ofName).getD .instruction ∧
      e.step.options = ((r.options.map items).getD []).map String.ofList ∧
      e.step.children = [] := by
  have parts : r.entry record = do
      let index ← parseInteger record "StepIndex" r.index
      let parent ← parseParent record r.parent
      let paths ← parsePaths record ((filled r.paths).map items |>.getD [])
      let config ← parseConfig record {} ((filled r.config).map items |>.getD [])
      return {
        step := {
          id := filled r.id
          index
          title := r.title.getD ""
          description := r.description.getD ""
          tag := r.tag.getD ""
          kind := (r.kind.map Kind.ofName).getD .instruction
          paths
          options := ((r.options.map items).getD []).map String.ofList
          config }
        parent } := by
    rw [entry, parseParent]
    cases filled r.parent <;> rfl
  rw [parts, items_filled, items_filled]
  constructor
  · intro h
    obtain ⟨index, hindex, h⟩ := bind_ok.mp h
    obtain ⟨parent, hparent, h⟩ := bind_ok.mp h
    obtain ⟨paths, hpaths, h⟩ := bind_ok.mp h
    obtain ⟨config, hconfig, h⟩ := bind_ok.mp h
    cases h
    exact ⟨hindex, hparent, hpaths, hconfig, rfl, rfl, rfl, rfl, rfl, rfl, rfl⟩
  · obtain ⟨step, parent⟩ := e
    obtain ⟨id, index, title, description, tag, kind, paths, options, config, children⟩ := step
    rintro ⟨hindex, hparent, hpaths, hconfig, rfl, rfl, rfl, rfl, rfl, rfl, rfl⟩
    simp only [hindex, hparent, hpaths, hconfig]
    rfl

def Row.ofEntry (e : Entry) : Row where
  id := e.step.id
  index := toString e.step.index
  title := some e.step.title
  description := some e.step.description
  tag := some e.step.tag
  kind := some e.step.kind.name
  paths := some (listed (e.step.paths.map pathItem))
  options := some (listed e.step.options)
  config := some (listed (e.step.config.entries.map settingItem))
  parent := e.parent.map toString

/-- Entries that cells can hold: without children, with an id that is not blank if there is one,
with whole numbers of 64 bits, and with texts that leave the marks of their cell to the cell. -/
structure Writable (e : Entry) : Prop where
  childless : e.step.children = []
  id : ∀ id ∈ e.step.id, isAllBlank id = false
  index : Number.isSigned64 e.step.index = true
  parent : ∀ n ∈ e.parent, Number.isSigned64 n = true
  paths : ∀ p ∈ e.step.paths, IsPath p
  options : ∀ o ∈ e.step.options, IsItem o.toList
  stored : e.step.config.Stored
  settings : ∀ x ∈ e.step.config.entries, IsSetting x

theorem filled_eq_self {cell : Option String} (h : ∀ text ∈ cell, isAllBlank text = false) :
    filled cell = cell := by
  cases cell with
  | none => rfl
  | some text => exact Option.filter_some_pos (by simp [h text rfl])

theorem Kind.ofName_name (k : Kind) : Kind.ofName k.name = k := by
  cases k <;> decide +kernel

theorem Writable.config {e : Entry} (w : Writable e) : parseConfig record {}
    (items (listed (e.step.config.entries.map settingItem))) = .ok e.step.config := by
  have texts : ∀ t ∈ e.step.config.entries.map settingItem, IsItem t.toList := by
    intro t ht
    obtain ⟨x, hx, rfl⟩ := List.mem_map.mp ht
    exact (w.settings x hx).isItem (w.stored.trim_key hx)
  have read : parseConfig record (Config.ofList []) _ = _ := parseConfig_settingItems [] w.settings
  rw [List.nil_append, w.stored.ofList_entries] at read
  rw [items_listed texts]
  exact read

theorem parseParent_toString {parent : Option Int}
    (h : ∀ n ∈ parent, Number.isSigned64 n = true) :
    parseParent record (parent.map toString) = .ok parent := by
  cases parent with
  | none => rfl
  | some n =>
    have cell : filled (some (toString n)) = some (toString n) :=
      filled_eq_self fun text ht => Option.mem_some_iff.mp ht ▸ toString_filled n
    rw [Option.map_some, parseParent, cell]
    simp only [parseInteger_toString (h n rfl)]
    rfl

theorem isSigned64_of_parseParent {cell : Option String} {parent : Option Int}
    (h : parseParent record cell = .ok parent) : ∀ n ∈ parent, Number.isSigned64 n = true := by
  rw [parseParent] at h
  split at h
  · next text _ =>
    cases read : parseInteger record "Parent" text with
    | error fault =>
      rw [read] at h
      cases h
    | ok m =>
      rw [read] at h
      cases h
      exact fun n hn => Option.mem_some_iff.mp hn ▸ isSigned64_of_parseInteger read
  · cases h
    exact fun n hn => nomatch hn

theorem Writable.entry_ofEntry {e : Entry} (w : Writable e) :
    (Row.ofEntry e).entry record = .ok e := by
  have pathItems : ∀ t ∈ e.step.paths.map pathItem, IsItem t.toList := by
    intro t ht
    obtain ⟨p, hp, rfl⟩ := List.mem_map.mp ht
    exact (w.paths p hp).isItem
  have options : e.step.options = (items (listed e.step.options)).map String.ofList := by
    rw [items_listed w.options, List.map_map, String.ofList_comp_toList, List.map_id]
  simp only [Row.entry_ok_iff, Row.ofEntry, Option.map_some, Option.getD_some,
    parseInteger_toString w.index, parseParent_toString w.parent, items_listed pathItems,
    parsePaths_pathItems w.paths, w.config, filled_eq_self w.id, Kind.ofName_name, ← options,
    w.childless, and_self]

theorem writable_of_entry {r : Row} {e : Entry} (h : r.entry record = .ok e) : Writable e := by
  obtain ⟨index, parent, paths, config, id, -, -, -, -, options, childless⟩ :=
    Row.entry_ok_iff.mp h
  have itemsOf : ∀ cell : Option String, ∀ item ∈ (cell.map items).getD [], IsItem item := by
    intro cell item hitem
    cases cell with
    | none => cases hitem
    | some cell => exact isItem_of_mem_items hitem
  obtain ⟨pairs, made, settings⟩ :=
    exists_ofList_of_parseConfig [] (itemsOf r.config) config
  rw [List.nil_append] at made
  exact {
    childless
    id := by
      rw [id]
      exact fun text ht => by simpa using (Option.mem_filter_iff.mp ht).2
    index := isSigned64_of_parseInteger index
    parent := isSigned64_of_parseParent parent
    paths := isPath_of_parsePaths (itemsOf r.paths) paths
    options := by
      intro o ho
      rw [options] at ho
      obtain ⟨item, hitem, rfl⟩ := List.mem_map.mp ho
      rw [String.toList_ofList]
      exact itemsOf r.options item hitem
    stored := made ▸ Config.stored_ofList pairs
    settings := by
      intro x hx
      rw [made] at hx
      obtain ⟨p, hp, rfl⟩ := Config.mem_ofList hx
      obtain ⟨colon, single, trimmed, value⟩ := settings p hp
      exact {
        colon := fun mark => colon (Config.mem_of_mem_keyOf (by simp [Plain]) mark)
        single := fun mark => single (Config.mem_of_mem_keyOf (by simp [Plain]) mark)
        trimmed
        value } }

/-- Reading a row is stable: what was read from one is read again from the row that it is written
as, whatever the numbers of the two records, and an entry can be read from its row if cells can hold
it. -/
theorem rows_reread :
    (∀ (r : Row) (record record' : Nat) (e : Entry), r.entry record = .ok e →
      (Row.ofEntry e).entry record' = .ok e) ∧
    ∀ (e : Entry) (record : Nat), Writable e → (Row.ofEntry e).entry record = .ok e :=
  ⟨fun _ _ _ _ h => (writable_of_entry h).entry_ofEntry, fun _ _ w => w.entry_ofEntry⟩

/-- A row with colons in a label and in a value, a path without a label, an empty key, and a key
whose lower case needs a final sigma. -/
def sealRow : Row where
  id := some "  "
  index := " 3.0"
  kind := some " Decision"
  paths := some " Dry: yes : 4;;:-2 "
  options := some " oil ; ; water"
  config := some "ΦΩΣ : 1:2 ; :"
  parent := some "+1"

def sealEntry : Entry where
  step := {
    index := 3
    kind := .decision
    paths := [⟨4, "Dry: yes"⟩, ⟨-2, ""⟩]
    options := ["oil", "water"]
    config := ⟨[("", ""), ("φως", "1:2")]⟩ }
  parent := some 1

theorem sealRow_reread : sealRow.entry 2 = .ok sealEntry ∧
    (Row.ofEntry sealEntry).paths = some "Dry: yes:4;:-2" ∧
    (Row.ofEntry sealEntry).entry 7 = .ok sealEntry ∧
    Writable sealEntry ∧ (Row.ofEntry sealEntry).entry 1 = .ok sealEntry := by
  have read : sealRow.entry 2 = .ok sealEntry := by
    rw [Row.entry_ok_iff]
    decide +kernel
  exact ⟨read, by decide +kernel, rows_reread.1 _ _ _ _ read, writable_of_entry read,
    rows_reread.2 _ _ (writable_of_entry read)⟩

end FieldProcedure.Intake
