import FieldProcedure.Wiring
import FieldProcedure.Proofs.Drawing
import FieldProcedure.Proofs.Levels
import Mathlib.Data.List.Forall2

/-! What the wiring of a level yields. Its steps carry the ids that they supply and drawn ones for
the rest; then one identifier is drawn for each path, step by step, and the connection leads to the
step that has the target as its index. When indexes are distinct and paths stay in the level, only a
draw can fail. -/
namespace FieldProcedure.Wiring
open Drawing Pool

/-- The steps carry these ids, of which the drawn ones go to the steps that supply none. -/
inductive Named : List Step → List String → List String → Prop
  | nil : Named [] [] []
  | supplied {s : Step} {steps : List Step} {id : String} {ids drawn : List String} :
    s.suppliedId? = some id → Named steps ids drawn → Named (s :: steps) (id :: ids) drawn
  | drawn {s : Step} {steps : List Step} {id : String} {ids drawn : List String} :
    s.suppliedId? = none → Named steps ids drawn → Named (s :: steps) (id :: ids) (id :: drawn)

structure Along (ids : List (Int × String)) (source : String) (path : Path) (link : Link) :
    Prop where
  source : link.source = source
  label : link.label = path.label
  sink : ids.lookup path.target = some link.sink

def linkIds (wired : List Wired) : List String := wired.flatMap fun w => w.links.map (·.id)

variable {p q : Pool} {steps level : List Step} {ids drawn : List String} {wired : List Wired}
  {byIndex : List (Int × String)}

theorem exists_left {α β : Type} {R : α → β → Prop} {as : List α} {bs : List β}
    (h : List.Forall₂ R as bs) {k : Nat} {b : β} (hb : bs[k]? = some b) :
    ∃ a, as[k]? = some a ∧ R a b := by
  obtain ⟨hk, rfl⟩ := List.getElem?_eq_some_iff.mp hb
  have hk' : k < as.length := h.length_eq ▸ hk
  exact ⟨as[k], List.getElem?_eq_getElem hk', h.get hk' hk⟩

theorem exists_right {α β : Type} {R : α → β → Prop} {as : List α} {bs : List β}
    (h : List.Forall₂ R as bs) {k : Nat} {a : α} (ha : as[k]? = some a) :
    ∃ b, bs[k]? = some b ∧ R a b := exists_left h.flip ha

theorem Named.perm (h : Named steps ids drawn) :
    ids.Perm (steps.filterMap Step.suppliedId? ++ drawn) := by
  induction h with
  | nil => exact .nil
  | supplied hs _ ih =>
    rw [List.filterMap_cons_some hs]
    exact ih.cons _
  | drawn hs _ ih =>
    rw [List.filterMap_cons_none hs]
    exact (ih.cons _).trans List.perm_middle.symm

theorem Named.length_eq (h : Named steps ids drawn) : ids.length = steps.length := by
  induction h with
  | nil => rfl
  | supplied _ _ ih => simp only [List.length_cons, ih]
  | drawn _ _ ih => simp only [List.length_cons, ih]

theorem Named.of_supplied (h : Named steps ids drawn) {k : Nat} {s : Step} {id : String}
    (hs : steps[k]? = some s) (hid : s.suppliedId? = some id) : ids[k]? = some id := by
  induction h generalizing k with
  | nil => simp at hs
  | supplied hs' _ ih =>
    cases k with
    | zero =>
      cases hs
      exact hs'.symm.trans hid
    | succ k => exact ih hs
  | drawn hs' _ ih =>
    cases k with
    | zero =>
      cases hs
      cases hs'.symm.trans hid
    | succ k => exact ih hs

theorem Named.of_none (h : Named steps ids drawn) {k : Nat} {s : Step} {id : String}
    (hs : steps[k]? = some s) (hnone : s.suppliedId? = none) (hid : ids[k]? = some id) :
    id ∈ drawn := by
  induction h generalizing k with
  | nil => simp at hs
  | supplied hs' _ ih =>
    cases k with
    | zero =>
      cases hs
      cases hs'.symm.trans hnone
    | succ k => exact ih hs hid
  | drawn _ _ ih =>
    cases k with
    | zero =>
      cases hid
      exact List.mem_cons_self
    | succ k => exact List.mem_cons_of_mem _ (ih hs hid)

theorem idsOf_gives (h : Gives (idsOf steps) p ids q) :
    ∃ drawn, Hands p drawn q ∧ Named steps ids drawn := by
  induction steps generalizing p ids with
  | nil =>
    obtain ⟨rfl, rfl⟩ := gives_pure.mp h
    exact ⟨[], .nothing p, .nil⟩
  | cons s rest ih =>
    obtain ⟨id, p', hid, h⟩ := gives_bind.mp h
    obtain ⟨ids', q', hids, h⟩ := gives_bind.mp h
    obtain ⟨rfl, rfl⟩ := gives_pure.mp h
    obtain ⟨drawn, hands, named⟩ := ih hids
    unfold idOf at hid
    split at hid
    · next id' hs =>
      obtain ⟨rfl, rfl⟩ := gives_pure.mp hid
      exact ⟨drawn, hands, .supplied hs named⟩
    · next hs => exact ⟨id :: drawn, .next hid hands, .drawn hs named⟩

theorem idsOf_steady (steps : List Step) : Steady (idsOf steps) := by
  induction steps with
  | nil => exact .pure []
  | cons s rest ih =>
    refine .bind ?_ fun _ => ih.bind fun _ => .pure _
    unfold idOf
    split
    · exact .pure _
    · exact .fresh

theorem linksOf_gives {index : Int} {source : String} {paths : List Path} {links : List Link}
    (h : Gives (linksOf byIndex index source paths) p links q) :
    Hands p (links.map (·.id)) q ∧ List.Forall₂ (Along byIndex source) paths links := by
  induction paths generalizing p links with
  | nil =>
    obtain ⟨rfl, rfl⟩ := gives_pure.mp h
    exact ⟨.nothing p, .nil⟩
  | cons path rest ih =>
    rw [linksOf] at h
    split at h
    · exact absurd h gives_throw
    · next sink hsink =>
      obtain ⟨id, p', hid, h⟩ := gives_bind.mp h
      obtain ⟨links', q', hlinks, h⟩ := gives_bind.mp h
      obtain ⟨rfl, rfl⟩ := gives_pure.mp h
      obtain ⟨hands, along⟩ := ih hlinks
      exact ⟨.next hid hands, .cons ⟨rfl, rfl, hsink⟩ along⟩

theorem linksOf_steady {index : Int} {source : String} {paths : List Path}
    (h : ∀ path ∈ paths, ∃ sink, byIndex.lookup path.target = some sink) :
    Steady (linksOf byIndex index source paths) := by
  induction paths with
  | nil => exact .pure []
  | cons path rest ih =>
    obtain ⟨sink, hsink⟩ := h path List.mem_cons_self
    rw [linksOf, hsink]
    exact .bind .fresh fun _ =>
      (ih fun path' h' => h path' (List.mem_cons_of_mem _ h')).bind fun _ => .pure _

theorem connect_gives {n : Nat} {pairs : List (Step × String)}
    (h : Gives (connect byIndex n pairs) p wired q) :
    Hands p (linkIds wired) q ∧ wired.map (fun w => (w.step, w.id)) = pairs ∧
      wired.map (·.position) = List.range' n pairs.length ∧
      ∀ w ∈ wired, List.Forall₂ (Along byIndex w.id) w.step.paths w.links := by
  induction pairs generalizing n p wired with
  | nil =>
    obtain ⟨rfl, rfl⟩ := gives_pure.mp h
    exact ⟨.nothing p, rfl, rfl, by simp⟩
  | cons pair rest ih =>
    obtain ⟨s, id⟩ := pair
    obtain ⟨links, p', hlinks, h⟩ := gives_bind.mp h
    obtain ⟨wired', q', hwired, h⟩ := gives_bind.mp h
    obtain ⟨rfl, rfl⟩ := gives_pure.mp h
    obtain ⟨drawn, along⟩ := linksOf_gives hlinks
    obtain ⟨drawn', pairs, positions, along'⟩ := ih hwired
    refine ⟨drawn.append drawn', ?_, ?_, ?_⟩
    · rw [List.map_cons, pairs]
    · rw [List.map_cons, positions, List.length_cons, List.range'_succ]
    · intro w hw
      rcases List.mem_cons.mp hw with rfl | hw
      · exact along
      · exact along' w hw

theorem connect_steady {n : Nat} {pairs : List (Step × String)}
    (h : ∀ pair ∈ pairs, ∀ path ∈ pair.1.paths, ∃ sink, byIndex.lookup path.target = some sink) :
    Steady (connect byIndex n pairs) := by
  induction pairs generalizing n with
  | nil => exact .pure []
  | cons pair rest ih =>
    refine .bind (linksOf_steady (h pair List.mem_cons_self)) fun _ => ?_
    exact (ih fun pair' h' => h pair' (List.mem_cons_of_mem _ h')).bind fun _ => .pure _

theorem lookup_zip {keys : List Int} {values : List String} (distinct : keys.Nodup) {n : Int}
    {v : String} :
    (keys.zip values).lookup n = some v ↔ ∃ k : Nat, keys[k]? = some n ∧ values[k]? = some v := by
  induction keys generalizing values with
  | nil => simp
  | cons m rest ih =>
    obtain ⟨single, distinct⟩ := List.nodup_cons.mp distinct
    cases values with
    | nil => simp
    | cons x values =>
      rw [List.zip_cons_cons, List.lookup_cons]
      by_cases hn : n = m
      · subst hn
        simp only [beq_self_eq_true, Option.some.injEq]
        constructor
        · rintro rfl
          exact ⟨0, rfl, rfl⟩
        · rintro ⟨_ | k, hk, hv⟩
          · exact Option.some.inj hv
          · -- Further on the key would stand a second time.
            rw [List.getElem?_cons_succ] at hk
            exact absurd (List.mem_of_getElem? hk) single
      · simp only [beq_eq_false_iff_ne.mpr hn, ih distinct]
        constructor
        · rintro ⟨k, hk, hv⟩
          exact ⟨k + 1, hk, hv⟩
        · rintro ⟨_ | k, hk, hv⟩
          · exact absurd (Option.some.inj hk).symm hn
          · exact ⟨k, hk, hv⟩

theorem getElem?_withDefaults (steps : List Step) (k : Nat) :
    (withDefaults steps)[k]? = steps[k]?.map fun s =>
      (steps[k + 1]?.map fun next => leadingTo next.index s).getD s := by
  induction steps generalizing k with
  | nil => rfl
  | cons s rest ih =>
    cases rest with
    | nil => cases k <;> rfl
    | cons next rest =>
      rw [withDefaults]
      cases k with
      | zero => rfl
      | succ k => exact ih k

theorem length_withDefaults (steps : List Step) : (withDefaults steps).length = steps.length := by
  induction steps with
  | nil => rfl
  | cons s rest ih =>
    cases rest with
    | nil => rfl
    | cons next rest => rw [withDefaults, List.length_cons, ih, ← List.length_cons]

theorem map_withDefaults {α : Type} {f : Step → α} (h : ∀ next s, f (leadingTo next s) = f s)
    (steps : List Step) : (withDefaults steps).map f = steps.map f := by
  induction steps with
  | nil => rfl
  | cons s rest ih =>
    cases rest with
    | nil => rfl
    | cons next rest => rw [withDefaults, List.map_cons, ih, h, ← List.map_cons]

theorem target_of_withDefaults {s : Step} {path : Path} (hs : s ∈ withDefaults steps)
    (hp : path ∈ s.paths) :
    (∃ t ∈ steps, path ∈ t.paths) ∨ path.target ∈ steps.map (·.index) := by
  obtain ⟨k, hk⟩ := List.mem_iff_getElem?.mp hs
  rw [getElem?_withDefaults] at hk
  obtain ⟨t, ht, rfl⟩ := Option.map_eq_some_iff.mp hk
  cases hnext : steps[k + 1]? with
  | none =>
    rw [hnext] at hp
    exact .inl ⟨t, List.mem_of_getElem? ht, hp⟩
  | some next =>
    rw [hnext] at hp
    simp only [Option.map_some, Option.getD_some, leadingTo] at hp
    split at hp
    · obtain rfl := List.mem_singleton.mp hp
      exact .inr (List.mem_map_of_mem (List.mem_of_getElem? hnext))
    · exact .inl ⟨t, List.mem_of_getElem? ht, hp⟩

/-- The wired form of a level, with the identifiers drawn for its steps. -/
structure Wires (level : List Step) (wired : List Wired) (drawn : List String) : Prop where
  distinct : ((framed level).map (·.index)).Nodup
  named : Named (framed level) (wired.map (·.id)) drawn
  steps : wired.map (·.step) = withDefaults (framed level)
  positions : wired.map (·.position) = List.range (level.length + 2)
  linked : ∀ w ∈ wired, List.Forall₂
    (Along (((framed level).map (·.index)).zip (wired.map (·.id))) w.id) w.step.paths w.links

@[simp]
theorem length_framed (level : List Step) : (framed level).length = level.length + 2 := by
  simp [framed]

theorem filterMap_framed (level : List Step) :
    (framed level).filterMap Step.suppliedId? = level.filterMap Step.suppliedId? := by
  have start : opening.suppliedId? = none := rfl
  have finish : closing.suppliedId? = none := rfl
  unfold framed
  rw [List.filterMap_append, List.filterMap_cons_none start,
    List.filterMap_cons_none finish, List.filterMap_nil, List.append_nil]

theorem getElem?_framed_of_lt {k : Nat} (hk : k < level.length) :
    (framed level)[k + 1]? = level[k]? := by
  unfold framed
  rw [List.cons_append, List.getElem?_cons_succ, List.getElem?_append_left hk]

theorem getElem?_authored {k : Nat} {s : Step} (hs : (framed level)[k]? = some s)
    (hkind : s.kind ≠ .start ∧ s.kind ≠ .finish) : ∃ i, k = i + 1 ∧ level[i]? = some s := by
  cases k with
  | zero =>
    cases hs
    exact absurd rfl hkind.1
  | succ i =>
    refine ⟨i, rfl, ?_⟩
    by_cases hi : i < level.length
    · rwa [getElem?_framed_of_lt hi] at hs
    · rw [framed, List.cons_append, List.getElem?_cons_succ,
        List.getElem?_append_right (Nat.le_of_not_lt hi)] at hs
      obtain rfl := List.mem_singleton.mp (List.mem_of_getElem? hs)
      exact absurd rfl hkind.2

theorem wire_gives (h : Gives (wire level) p wired q) :
    ∃ drawn, Hands p (drawn ++ linkIds wired) q ∧ Wires level wired drawn := by
  simp only [wire] at h
  split at h
  · exact absurd h gives_throw
  · next hdistinct =>
    obtain ⟨ids, p', hids, h⟩ := gives_bind.mp h
    obtain ⟨drawn, hands, named⟩ := idsOf_gives hids
    obtain ⟨hands', pairs, positions, linked⟩ := connect_gives h
    have length : (withDefaults (framed level)).length = ids.length := by
      rw [length_withDefaults, named.length_eq]
    have hsteps : wired.map (·.step) = withDefaults (framed level) := by
      have firsts := congrArg (List.map Prod.fst) pairs
      rwa [List.map_map, List.map_fst_zip (Nat.le_of_eq length)] at firsts
    have hid : wired.map (·.id) = ids := by
      have seconds := congrArg (List.map Prod.snd) pairs
      rwa [List.map_map, List.map_snd_zip (Nat.le_of_eq length.symm)] at seconds
    refine ⟨drawn, hands.append hands', ?_⟩
    exact {
      distinct := firstRepeat?_eq_none_iff_nodup.mp hdistinct
      named := hid ▸ named
      steps := hsteps
      positions := by
        rw [positions, List.length_zip, ← length, Nat.min_self, length_withDefaults,
          length_framed, List.range_eq_range']
      linked := by
        rw [hid]
        exact linked }

namespace Wires

variable {k : Nat} {w : Wired} {s : Step}

theorem length_eq (h : Wires level wired drawn) : wired.length = level.length + 2 := by
  have lengths := congrArg List.length h.steps
  rwa [List.length_map, length_withDefaults, length_framed] at lengths

theorem step_eq (h : Wires level wired drawn) (hw : wired[k]? = some w)
    (hs : (framed level)[k]? = some s) :
    w.step = ((framed level)[k + 1]?.map fun next => leadingTo next.index s).getD s := by
  have here := congrArg (·[k]?) h.steps
  simp only [List.getElem?_map, getElem?_withDefaults, hw, hs] at here
  exact Option.some.inj here

theorem exists_step (h : Wires level wired drawn) (hw : wired[k]? = some w) :
    ∃ s, (framed level)[k]? = some s := by
  have bound := (List.getElem?_eq_some_iff.mp hw).1
  rw [h.length_eq, ← length_framed] at bound
  exact ⟨_, List.getElem?_eq_getElem bound⟩

theorem exists_wired (h : Wires level wired drawn) (hs : (framed level)[k]? = some s) :
    ∃ w, wired[k]? = some w := by
  have bound := (List.getElem?_eq_some_iff.mp hs).1
  rw [length_framed, ← h.length_eq] at bound
  exact ⟨_, List.getElem?_eq_getElem bound⟩

end Wires

theorem wire_steady (distinct : ((framed level).map (·.index)).Nodup)
    (resolved : ∀ s ∈ level, ∀ path ∈ s.paths, path.target ∈ (framed level).map (·.index)) :
    Steady (wire level) := by
  simp only [wire, firstRepeat?_eq_none_iff_nodup.mpr distinct]
  refine .bind (idsOf_steady _) fun {p ids q} hids => connect_steady fun pair hpair path hpath => ?_
  -- A target is an index of the level, and every step of the level has been given an id.
  obtain ⟨drawn, _, named⟩ := idsOf_gives hids
  have hs : pair.1 ∈ withDefaults (framed level) := (List.of_mem_zip hpair).1
  have target : path.target ∈ (framed level).map (·.index) := by
    rcases target_of_withDefaults hs hpath with ⟨t, ht, hpath⟩ | target
    · simp only [framed, List.cons_append, List.mem_cons, List.mem_append, List.not_mem_nil,
        or_false] at ht
      rcases ht with rfl | ht | rfl
      · cases hpath
      · exact resolved t ht path hpath
      · cases hpath
    · exact target
  obtain ⟨k, hk, hget⟩ := List.mem_iff_getElem.mp target
  have bound : k < ids.length := by
    rw [named.length_eq]
    simpa only [List.length_map] using hk
  exact ⟨ids[k], (lookup_zip distinct).mpr
    ⟨k, List.getElem?_eq_some_iff.mpr ⟨hk, hget⟩, List.getElem?_eq_getElem bound⟩⟩

end FieldProcedure.Wiring
