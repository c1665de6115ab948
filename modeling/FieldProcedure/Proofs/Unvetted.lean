import FieldProcedure.Proofs.Blame
import FieldProcedure.Proofs.Spending

/-! The wiring of levels that nobody has vetted. A repeated index is found before anything is drawn.
After that the steps get their ids and the paths are followed in order: the first one that leads out
of the level ends the wiring, and what was drawn by then are the ids of the steps and of the
connections before it. -/
namespace FieldProcedure

namespace Pool
open Drawing

variable {p q : Pool} {drawn : List String}

/-- From the first pool to the second, just these identifiers were handed out and are taken now, and
none of them was before. -/
structure Adds (p : Pool) (drawn : List String) (q : Pool) : Prop where
  hands : Hands p drawn q
  distinct : drawn.Nodup
  new : ∀ x ∈ drawn, x ∉ p.taken
  taken : ∀ x, x ∈ q.taken ↔ x ∈ drawn ∨ x ∈ p.taken

theorem Hands.adds (h : Hands p drawn q) : Adds p drawn q :=
  ⟨h, h.nodup, h.free, fun _ => h.spends.mem_taken⟩

end Pool

namespace Wiring
open Drawing Pool

variable {p q : Pool} {level steps : List Step} {wired : List Wired} {ids drawn : List String}
  {byIndex : List (Int × String)} {paths : List Path}

/-- The ways on from a step: the paths that it declares, or one to the step after it if it declares
none and ends nothing. -/
def pathsBefore (next : Option Step) (s : Step) : List Path :=
  if s.paths ≠ [] then s.paths
  else if s.kind = .finish then []
  else next.toList.map fun t => ⟨t.index, ""⟩

def waysOn : List Step → List (Int × Path)
  | [] => []
  | s :: rest => (pathsBefore rest.head? s).map (s.index, ·) ++ waysOn rest

def unnamed (steps : List Step) : Nat := steps.countP (·.suppliedId?.isNone)

def declaredWays (s : Step) : List (Int × Path) := s.paths.map (s.index, ·)

theorem leadingTo_eq (next : Option Step) (s : Step) :
    (next.map fun t => leadingTo t.index s).getD s = { s with paths := pathsBefore next s } := by
  obtain ⟨id, index, title, description, tag, kind, paths, options, config, children⟩ := s
  cases paths with
  | cons first rest => cases next <;> rfl
  | nil =>
    by_cases ends : kind = .finish
    · subst ends
      cases next <;> rfl
    · cases next with
      | none => simp [pathsBefore]
      | some t => simp [leadingTo, pathsBefore, ends]

theorem flatMap_withDefaults (steps : List Step) :
    (withDefaults steps).flatMap declaredWays = waysOn steps := by
  induction steps with
  | nil => rfl
  | cons s rest ih =>
    have here : declaredWays ((rest.head?.map fun t => leadingTo t.index s).getD s) =
        (pathsBefore rest.head? s).map (s.index, ·) := by
      rw [leadingTo_eq]
      rfl
    rw [waysOn, ← ih, ← here]
    cases rest <;> rfl

theorem Named.length_drawn (h : Named steps ids drawn) : drawn.length = unnamed steps := by
  induction h with
  | nil => rfl
  | supplied hs _ ih =>
    rw [ih, unnamed, unnamed, List.countP_cons_of_neg]
    simp [hs]
  | drawn hs _ ih =>
    rw [List.length_cons, ih, unnamed, unnamed, List.countP_cons_of_pos]
    simp [hs]

theorem linksOf_dangles (index : Int) (source : String) {before : List Path} (after : List Path)
    {path : Path} (hs : Function.Injective p.supply)
    (resolved : ∀ path ∈ before, ∃ sink, byIndex.lookup path.target = some sink)
    (dangles : byIndex.lookup path.target = none) :
    ∃ drawn q, Fails (linksOf byIndex index source (before ++ path :: after)) p
      (.unresolvedTarget index path.target) q ∧ Hands p drawn q ∧
        drawn.length = before.length := by
  induction before generalizing p with
  | nil =>
    refine ⟨[], p, ?_, .nothing p, rfl⟩
    rw [List.nil_append, linksOf, dangles]
    rfl
  | cons first rest ih =>
    obtain ⟨⟨sink, hsink⟩, resolved⟩ := List.forall_mem_cons.mp resolved
    obtain ⟨id, q, hid⟩ := Steady.fresh.gives hs
    obtain ⟨drawn, r, fails, hands, length⟩ := ih (fresh_supply hid ▸ hs) resolved
    refine ⟨id :: drawn, r, ?_, .next hid hands, congrArg (· + 1) length⟩
    rw [List.cons_append, linksOf, hsink]
    exact fails_bind.mpr (.inr ⟨id, q, hid, fails_bind.mpr (.inl fails)⟩)

theorem connect_dangles {pairs : List (Step × String)} {n : Nat} {earlier later : List (Int × Path)}
    {index : Int} {path : Path} (hs : Function.Injective p.supply)
    (split : (pairs.map Prod.fst).flatMap declaredWays = earlier ++ (index, path) :: later)
    (resolved : ∀ way ∈ earlier, ∃ sink, byIndex.lookup way.2.target = some sink)
    (dangles : byIndex.lookup path.target = none) :
    ∃ drawn q, Fails (connect byIndex n pairs) p (.unresolvedTarget index path.target) q ∧
      Hands p drawn q ∧ drawn.length = earlier.length := by
  induction pairs generalizing p n earlier with
  | nil => simp at split
  | cons pair rest ih =>
    obtain ⟨s, id⟩ := pair
    rw [List.map_cons, List.flatMap_cons] at split
    have beyond (more : List (Int × Path)) (whole : earlier = declaredWays s ++ more)
        (tail : (rest.map Prod.fst).flatMap declaredWays = more ++ (index, path) :: later) :
        ∃ drawn q, Fails (connect byIndex n ((s, id) :: rest)) p
          (.unresolvedTarget index path.target) q ∧ Hands p drawn q ∧
            drawn.length = earlier.length := by
      subst whole
      obtain ⟨own, others⟩ := List.forall_mem_append.mp resolved
      have steady : Steady (linksOf byIndex s.index id s.paths) :=
        linksOf_steady fun path hpath => own (s.index, path) (List.mem_map_of_mem hpath)
      obtain ⟨links, q, hlinks⟩ := steady.gives hs
      obtain ⟨hands, along⟩ := linksOf_gives hlinks
      obtain ⟨drawn, r, fails, hands', length⟩ :=
        ih (n := n + 1) (steady.supply hlinks ▸ hs) tail others
      refine ⟨_, r, ?_, hands.append hands', ?_⟩
      · exact fails_bind.mpr (.inr ⟨links, q, hlinks, fails_bind.mpr (.inl fails)⟩)
      · rw [List.length_append, List.length_append, List.length_map, length, declaredWays,
          List.length_map, along.length_eq]
    rcases List.append_eq_append_iff.mp split with ⟨more, whole, tail⟩ | ⟨inside, here, tail⟩
    · exact beyond more whole tail
    · cases inside with
      | nil => exact beyond [] (by simpa using here.symm) tail.symm
      | cons way inside =>
        obtain ⟨rfl, -⟩ := List.cons.inj tail
        obtain ⟨before, onward, hpaths, rfl, hback⟩ := List.map_eq_append_iff.mp here
        obtain ⟨path', after, rfl, hway, -⟩ := List.map_eq_cons_iff.mp hback
        obtain ⟨rfl, rfl⟩ := Prod.mk.inj hway
        obtain ⟨drawn, q, fails, hands, length⟩ := linksOf_dangles s.index id after hs
          (fun path hpath => resolved _ (List.mem_map_of_mem hpath)) dangles
        refine ⟨drawn, q, ?_, hands, by rw [length, List.length_map]⟩
        rw [connect, hpaths]
        exact fails_bind.mpr (.inl fails)

theorem length_linkIds (wires : Wires level wired drawn) :
    (linkIds wired).length = (wired.flatMap (·.step.paths)).length := by
  rw [linkIds, List.length_flatMap, List.length_flatMap]
  refine congrArg List.sum (List.map_congr_left fun w hw => ?_)
  rw [List.length_map, (wires.linked w hw).length_eq]

def indexes (level : List Step) : List Int := startIndex :: level.map (·.index) ++ [finishIndex]

theorem indexes_eq (level : List Step) : indexes level = (framed level).map (·.index) := by
  simp [indexes, framed, opening, closing]

def RepeatsFirst (l : List Int) (n : Int) : Prop :=
  ∃ before after, l = before ++ n :: after ∧ n ∈ before ∧ before.Nodup

theorem firstRepeat?_eq_some_iff {l : List Int} {n : Int} :
    firstRepeat? [] l = some n ↔ RepeatsFirst l n := by
  constructor
  · intro h
    obtain ⟨before, after, whole, again, distinct, -⟩ := firstRepeat?_eq_some h
    exact ⟨before, after, whole, again.resolve_left List.not_mem_nil, distinct⟩
  · rintro ⟨before, after, rfl, again, distinct⟩
    exact firstRepeat?_append distinct (by simp) (.inr again)

theorem linksOf_error {index : Int} {source : String} {e : CompileError}
    (h : Fails (linksOf byIndex index source paths) p e q) :
    (∃ target, e = .unresolvedTarget index target) ∨ ∃ last, e = .idsExhausted last := by
  induction paths generalizing p with
  | nil => exact absurd h fails_pure
  | cons path rest ih =>
    rw [linksOf] at h
    split at h
    · cases h
      exact .inl ⟨path.target, rfl⟩
    · rcases fails_bind.mp h with dry | ⟨_, _, _, h⟩
      · exact .inr (fresh_exhausted dry)
      · rcases fails_bind.mp h with h | ⟨_, _, _, h⟩
        · exact ih h
        · exact absurd h fails_pure

theorem connect_error {pairs : List (Step × String)} {n : Nat} {e : CompileError}
    (h : Fails (connect byIndex n pairs) p e q) :
    (∃ index target, e = .unresolvedTarget index target) ∨ ∃ last, e = .idsExhausted last := by
  induction pairs generalizing p n with
  | nil => exact absurd h fails_pure
  | cons pair rest ih =>
    rcases fails_bind.mp h with h | ⟨_, _, _, h⟩
    · exact (linksOf_error h).imp_left fun target => ⟨_, target⟩
    · rcases fails_bind.mp h with h | ⟨_, _, _, h⟩
      · exact ih h
      · exact absurd h fails_pure

theorem not_repeated (distinct : ((framed level).map (·.index)).Nodup) {n : Int} :
    ¬ Fails (wire level) p (.duplicateIndex n) q := by
  simp only [wire, firstRepeat?_eq_none_iff_nodup.mpr distinct]
  intro h
  rcases fails_bind.mp h with h | ⟨ids, r, -, h⟩
  · obtain ⟨_, error⟩ := (idsOf_steady _).exhausted h
    cases error
  · rcases connect_error h with ⟨_, _, error⟩ | ⟨_, error⟩ <;> cases error

theorem wire_repeated_iff {n : Int} :
    Fails (wire level) p (.duplicateIndex n) q ↔ RepeatsFirst (indexes level) n ∧ q = p := by
  rw [← firstRepeat?_eq_some_iff, indexes_eq]
  cases repeated : firstRepeat? [] ((framed level).map (·.index)) with
  | none =>
    have fits := not_repeated (p := p) (q := q) (n := n)
      (firstRepeat?_eq_none_iff_nodup.mp repeated)
    simp [fits]
  | some m =>
    simp only [wire, repeated]
    constructor
    · rintro ⟨⟩
      exact ⟨rfl, rfl⟩
    · rintro ⟨⟨⟩, rfl⟩
      rfl

structure Dangles (level : List Step) (earlier : List (Int × Path)) (index : Int) (path : Path) :
    Prop where
  ways : ∃ later, waysOn (framed level) = earlier ++ (index, path) :: later
  inside : ∀ way ∈ earlier, way.2.target ∈ indexes level
  outside : path.target ∉ indexes level

theorem exists_sink (named : Named (framed level) ids drawn) (distinct : (indexes level).Nodup)
    {n : Int} : (∃ sink, (((framed level).map (·.index)).zip ids).lookup n = some sink) ↔
      n ∈ indexes level := by
  rw [indexes_eq] at distinct ⊢
  constructor
  · rintro ⟨sink, found⟩
    obtain ⟨k, hk, -⟩ := (lookup_zip distinct).mp found
    exact List.mem_of_getElem? hk
  · intro hn
    obtain ⟨k, hk⟩ := List.mem_iff_getElem?.mp hn
    have bound : k < ids.length := by
      rw [named.length_eq, ← List.length_map (f := fun s : Step => s.index)]
      exact (List.getElem?_eq_some_iff.mp hk).1
    exact ⟨ids[k], (lookup_zip distinct).mpr ⟨k, hk, List.getElem?_eq_getElem bound⟩⟩

theorem wire_dangles {earlier : List (Int × Path)} {index : Int} {path : Path}
    (hs : Function.Injective p.supply) (distinct : (indexes level).Nodup)
    (h : Dangles level earlier index path) :
    ∃ drawn q, Fails (wire level) p (.unresolvedTarget index path.target) q ∧
      Hands p drawn q ∧ drawn.length = unnamed (framed level) + earlier.length := by
  obtain ⟨later, ways⟩ := h.ways
  obtain ⟨ids, q, hids⟩ := (idsOf_steady (framed level)).gives hs
  obtain ⟨drawn, hands, named⟩ := idsOf_gives hids
  have pairs : (((withDefaults (framed level)).zip ids).map Prod.fst).flatMap declaredWays =
      earlier ++ (index, path) :: later := by
    have length : (withDefaults (framed level)).length = ids.length := by
      rw [length_withDefaults, named.length_eq]
    rw [List.map_fst_zip (Nat.le_of_eq length), flatMap_withDefaults, ways]
  obtain ⟨drawn', r, fails, hands', length⟩ := connect_dangles (n := 0)
    ((idsOf_steady _).supply hids ▸ hs) pairs
    (fun way hway => (exists_sink named distinct).mpr (h.inside way hway))
    (Option.eq_none_iff_forall_ne_some.mpr fun sink found =>
      h.outside ((exists_sink named distinct).mp ⟨sink, found⟩))
  refine ⟨drawn ++ drawn', r, ?_, hands.append hands', ?_⟩
  · rw [indexes_eq] at distinct
    simp only [wire, firstRepeat?_eq_none_iff_nodup.mpr distinct]
    exact fails_bind.mpr (.inr ⟨ids, q, hids, fails⟩)
  · rw [List.length_append, named.length_drawn, length]

theorem mem_waysOn {s : Step} {path : Path} (hs : s ∈ steps) (hp : path ∈ s.paths) :
    (s.index, path) ∈ waysOn steps := by
  induction steps with
  | nil => cases hs
  | cons t rest ih =>
    rw [waysOn]
    rcases List.mem_cons.mp hs with rfl | hs
    · refine List.mem_append_left _ (List.mem_map_of_mem ?_)
      rwa [pathsBefore, if_pos (List.ne_nil_of_mem hp)]
    · exact List.mem_append_right _ (ih hs)

theorem inside_of_no_dangling (none : ¬ ∃ earlier index path, Dangles level earlier index path) :
    ∀ way ∈ waysOn (framed level), way.2.target ∈ indexes level := by
  by_contra outside
  simp only [not_forall, exists_prop] at outside
  obtain ⟨way, earlier, later, ways, away, before⟩ := exists_first outside
  exact none ⟨earlier, way.1, way.2, ⟨later, ways⟩,
    fun way hway => not_not.mp (before way hway), away⟩

theorem wire_inside (hs : Function.Injective p.supply) (distinct : (indexes level).Nodup)
    (none : ¬ ∃ earlier index path, Dangles level earlier index path) :
    ∃ wired q, Gives (wire level) p wired q := by
  have inside := inside_of_no_dangling none
  rw [indexes_eq] at distinct inside
  refine (wire_steady distinct fun s hs path hpath => inside (s.index, path) ?_).gives hs
  exact mem_waysOn (List.mem_cons_of_mem _ (List.mem_append_left _ hs)) hpath

/-- What the wiring of a level comes to, vetted or not. A repeated index is reported, and nothing is
drawn then. If the supply never repeats itself, a level of distinct indexes is refused for its first
path that leads elsewhere, with the ids of its steps and of the connections before that path
drawn; a level without such a path is wired, no step is changed but for a way on that it lacked,
and just the ids of its unnamed steps and of its connections are drawn. -/
theorem unvetted_level_wired (level : List Step) (p : Pool) :
    (∀ n q, Fails (wire level) p (.duplicateIndex n) q ↔
      RepeatsFirst (indexes level) n ∧ q = p) ∧
    ((∃ n q, Fails (wire level) p (.duplicateIndex n) q) ↔ ¬ (indexes level).Nodup) ∧
    (Function.Injective p.supply → (indexes level).Nodup →
      (∀ earlier index path, Dangles level earlier index path → ∃ drawn q,
        Fails (wire level) p (.unresolvedTarget index path.target) q ∧ Adds p drawn q ∧
          drawn.length = unnamed (framed level) + earlier.length) ∧
      ((¬ ∃ earlier index path, Dangles level earlier index path) →
        ∃ wired generated q, Gives (wire level) p wired q ∧
          Adds p (generated ++ linkIds wired) q ∧
          generated.length = unnamed (framed level) ∧
          (linkIds wired).length = (wired.flatMap (·.step.paths)).length ∧
          wired.length = level.length + 2 ∧
          ∀ (k : Nat) s w, (framed level)[k]? = some s → wired[k]? = some w →
            w.step = { s with paths := pathsBefore (framed level)[k + 1]? s })) := by
  refine ⟨fun n q => wire_repeated_iff, ?_, fun hs distinct => ⟨?_, fun none => ?_⟩⟩
  · simp only [wire_repeated_iff, exists_eq_right, ← firstRepeat?_eq_some_iff,
      ← firstRepeat?_eq_none_iff_nodup, ← Option.ne_none_iff_exists', ne_eq]
  · intro earlier index path dangles
    obtain ⟨drawn, q, fails, hands, length⟩ := wire_dangles hs distinct dangles
    exact ⟨drawn, q, fails, hands.adds, length⟩
  · obtain ⟨wired, q, gives⟩ := wire_inside hs distinct none
    obtain ⟨generated, hands, wires⟩ := wire_gives gives
    refine ⟨wired, generated, q, gives, hands.adds, wires.named.length_drawn, length_linkIds wires,
      wires.length_eq, fun k s w hs hw => ?_⟩
    rw [wires.step_eq hw hs, leadingTo_eq]

def leakChecks : List Step := [
  { index := 7, id := some "tank", kind := .decision, paths := [⟨-2, "dry"⟩, ⟨3, "leaking"⟩] },
  { index := 8, title := "Refill" }]

theorem leakChecks_dangles :
    Dangles leakChecks [(-1, ⟨7, ""⟩), (7, ⟨-2, "dry"⟩)] 7 ⟨3, "leaking"⟩ where
  ways := ⟨[(8, ⟨-2, ""⟩)], rfl⟩
  inside := by decide
  outside := by decide

theorem leakChecks_unwired :
    let p : Pool := { supply := Workflow.strokes.supply }
    Function.Injective p.supply ∧ (indexes leakChecks).Nodup ∧
      (∃ drawn q, Fails (wire leakChecks) p (.unresolvedTarget 7 3) q ∧ Adds p drawn q ∧
        drawn.length = 5) ∧
      ∃ wired q, Gives (wire Workflow.sealChecks) p wired q := by
  intro p
  have injective : Function.Injective p.supply := by
    intro m n h
    simpa [p, Workflow.strokes] using congrArg String.length h
  have distinct : (indexes leakChecks).Nodup := by decide
  have settled : ¬ ∃ earlier index path, Dangles Workflow.sealChecks earlier index path := by
    rintro ⟨earlier, index, path, ⟨later, ways⟩, -, outside⟩
    have inside : ∀ way ∈ waysOn (framed Workflow.sealChecks),
      way.2.target ∈ indexes Workflow.sealChecks := by decide
    exact outside (inside (index, path) (ways ▸ List.mem_append_right _ List.mem_cons_self))
  obtain ⟨dangling, -⟩ := (unvetted_level_wired leakChecks p).2.2 injective distinct
  obtain ⟨-, wiring⟩ := (unvetted_level_wired Workflow.sealChecks p).2.2 injective (by decide)
  obtain ⟨wired, _, q, gives, -⟩ := wiring settled
  exact ⟨injective, distinct, dangling _ _ _ leakChecks_dangles, wired, q, gives⟩

end Wiring
end FieldProcedure
