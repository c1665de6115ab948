import FieldProcedure.Proofs.Counterparts
import FieldProcedure.Proofs.Spending
import FieldProcedure.Proofs.Acceptance
import Mathlib.Logic.Equiv.Basic

/-! Two supplies for one workflow. A drawing that hands its answer ids it does not look at gives the
same answer with other ids from any other pool, as long as that pool hands out as many; so what the
two supplies yield is the same procedure under a renaming of the drawn ids. -/
namespace FieldProcedure

variable {f : String → String}

def Link.rename (f : String → String) (l : Link) : Link :=
  { l with id := f l.id, source := f l.source, sink := f l.sink }

def Wired.rename (f : String → String) (w : Wired) : Wired :=
  { w with id := f w.id, links := w.links.map (Link.rename f) }

def Base.rename (f : String → String) (b : Base) : Base :=
  { b with id := f b.id, links := b.links.map (Link.rename f) }

mutual
def Operation.rename (f : String → String) : Operation → Operation
  | .simple base act => .simple (base.rename f) act
  | .group base isForm level => .group (base.rename f) isForm (Operation.renameAll f level)
def Operation.renameAll (f : String → String) : List Operation → List Operation
  | [] => []
  | o :: rest => o.rename f :: Operation.renameAll f rest
end

def Procedure.rename (f : String → String) (p : Procedure) : Procedure :=
  { p with id := f p.id, level := Operation.renameAll f p.level }

namespace Pool
open Drawing

variable {p q r : Pool} {id : String} {ids ids' : List String}

theorem Hands.of_cons (h : Hands p (id :: ids) r) : ∃ q, Gives fresh p id q ∧ Hands q ids r := by
  cases h with
  | next hit rest => exact ⟨_, hit, rest⟩

theorem Hands.of_append (h : Hands p (ids ++ ids') r) : ∃ q, Hands p ids q ∧ Hands q ids' r := by
  induction ids generalizing p with
  | nil => exact ⟨p, .nothing p, h⟩
  | cons id ids ih =>
    obtain ⟨p', hit, rest⟩ := Hands.of_cons h
    obtain ⟨q, hands, hands'⟩ := ih rest
    exact ⟨q, .next hit hands, hands'⟩

end Pool

namespace Drawing
open Pool

variable {α α' β β' : Type} {g : α → α'} {g' : β → β'} {m : Drawing α} {m' : Drawing α'}
  {k : α → Drawing β} {k' : α' → Drawing β'}

/-- When the first drawing succeeds it has drawn some ids, and from every pool that hands out these
ids renamed the second one gives the renamed answer. -/
def Tracks (f : String → String) (g : α → α') (m : Drawing α) (m' : Drawing α') : Prop :=
  ∀ ⦃p a q⦄, Gives m p a q → ∃ ids, Hands p ids q ∧
    ∀ ⦃p' q'⦄, Hands p' (ids.map f) q' → Gives m' p' (g a) q'

namespace Tracks

theorem pure (a : α) : Tracks f g (pure a) (pure (g a)) := by
  intro p b q h
  obtain ⟨rfl, rfl⟩ := gives_pure.mp h
  refine ⟨[], .nothing p, fun p' q' hands => ?_⟩
  cases hands
  rfl

theorem throw (e : CompileError) : Tracks f g (throw e) m' :=
  fun _ _ _ h => absurd h gives_throw

theorem fresh : Tracks f f Pool.fresh Pool.fresh := by
  intro p id q h
  refine ⟨[id], .one h, fun p' q' hands => ?_⟩
  obtain ⟨r, hit, rest⟩ := Hands.of_cons hands
  cases rest
  exact hit

theorem bind (hm : Tracks f g m m')
    (hk : ∀ ⦃p a q⦄, Gives m p a q → Tracks f g' (k a) (k' (g a))) :
    Tracks f g' (m >>= k) (m' >>= k') := by
  intro p b r h
  obtain ⟨a, q, ha, hb⟩ := gives_bind.mp h
  obtain ⟨ids, hands, again⟩ := hm ha
  obtain ⟨ids', hands', again'⟩ := hk ha hb
  refine ⟨ids ++ ids', hands.append hands', fun p' r' renamed => ?_⟩
  rw [List.map_append] at renamed
  obtain ⟨q', first, others⟩ := Hands.of_append renamed
  exact gives_bind.mpr ⟨g a, q', again first, again' others⟩

end Tracks
end Drawing

namespace Wiring
open Drawing

variable {level steps : List Step} {byIndex : List (Int × String)}

theorem lookup_renamed (f : String → String) (byIndex : List (Int × String)) (n : Int) :
    (byIndex.map (Prod.map id f)).lookup n = (byIndex.lookup n).map f := by
  induction byIndex with
  | nil => rfl
  | cons pair rest ih =>
    obtain ⟨m, v⟩ := pair
    simp only [List.map_cons, Prod.map_apply, id_eq, List.lookup_cons, ih]
    split <;> rfl

theorem idsOf_tracks (fixed : ∀ s ∈ steps, ∀ id, s.suppliedId? = some id → f id = id) :
    Tracks f (List.map f) (idsOf steps) (idsOf steps) := by
  induction steps with
  | nil => exact .pure []
  | cons s rest ih =>
    have own : Tracks f f (idOf s) (idOf s) := by
      unfold idOf
      split
      · next id hs =>
        have same := fixed s List.mem_cons_self id hs
        have keeps : Tracks f f (pure id) (pure (f id)) := .pure id
        rwa [same] at keeps
      · exact .fresh
    refine own.bind fun _ id _ _ => ?_
    have others := ih fun t ht => fixed t (List.mem_cons_of_mem _ ht)
    exact others.bind fun _ ids _ _ => .pure (id :: ids)

theorem linksOf_tracks (index : Int) (source : String) (paths : List Path) :
    Tracks f (List.map (Link.rename f)) (linksOf byIndex index source paths)
      (linksOf (byIndex.map (Prod.map id f)) index (f source) paths) := by
  induction paths with
  | nil => exact .pure []
  | cons path rest ih =>
    rw [linksOf, linksOf, lookup_renamed]
    cases byIndex.lookup path.target with
    | none => exact .throw _
    | some sink =>
      refine Tracks.fresh.bind fun _ id _ _ => ?_
      exact ih.bind fun _ links _ _ => .pure (⟨id, source, sink, path.label⟩ :: links)

theorem connect_tracks (n : Nat) (pairs : List (Step × String)) :
    Tracks f (List.map (Wired.rename f)) (connect byIndex n pairs)
      (connect (byIndex.map (Prod.map id f)) n (pairs.map (Prod.map id f))) := by
  induction pairs generalizing n with
  | nil => exact .pure []
  | cons pair rest ih =>
    obtain ⟨s, id⟩ := pair
    refine (linksOf_tracks s.index id s.paths).bind fun _ links _ _ => ?_
    exact (ih (n + 1)).bind fun _ wired _ _ => .pure (⟨s, id, n, links⟩ :: wired)

theorem wire_tracks (fixed : ∀ s ∈ level, ∀ id, s.suppliedId? = some id → f id = id) :
    Tracks f (List.map (Wired.rename f)) (wire level) (wire level) := by
  simp only [wire]
  split
  · exact .throw _
  · have framed : ∀ s ∈ framed level, ∀ id, s.suppliedId? = some id → f id = id := by
      intro s hs id hid
      have authored : id ∈ level.filterMap Step.suppliedId? := by
        rw [← filterMap_framed]
        exact List.mem_filterMap.mpr ⟨s, hs, hid⟩
      obtain ⟨t, ht, hid⟩ := List.mem_filterMap.mp authored
      exact fixed t ht id hid
    refine (idsOf_tracks framed).bind fun _ ids _ _ => ?_
    rw [List.zip_map_right, List.zip_map_right]
    exact connect_tracks 0 _

end Wiring

namespace Compilation
open Drawing Pool Wiring Step

variable {level : List Step} {wired : List Wired}

theorem base_rename (f : String → String) (w : Wired) : base (w.rename f) = (base w).rename f := by
  have links : (base (w.rename f)).links = (base w).links.map (Link.rename f) :=
    (apply_ite (List.map (Link.rename f)) (w.step.kind = .finish) [] w.links).symm
  exact congrArg (fun links => { base (w.rename f) with links }) links

theorem compileWired_tracks {w : Wired} (inner : w.step.kind = .group →
      Tracks f (Operation.renameAll f) (compileLevel w.step.children)
        (compileLevel w.step.children)) :
    Tracks f (Operation.rename f) (compileWired w) (compileWired (w.rename f)) := by
  have step : (w.rename f).step = w.step := rfl
  unfold compileWired simple
  rw [step, base_rename]
  split
  · next hgroup =>
    exact (inner hgroup).bind fun _ ops _ _ => .pure (Operation.group (base w) _ ops)
  · cases act w.step with
    | error e => exact .throw e
    | ok a => exact .pure (Operation.simple (base w) a)

theorem compileAll_tracks (inner : ∀ w ∈ wired, w.step.kind = .group →
      Tracks f (Operation.renameAll f) (compileLevel w.step.children)
        (compileLevel w.step.children)) :
    Tracks f (Operation.renameAll f) (compileAll wired)
      (compileAll (wired.map (Wired.rename f))) := by
  induction wired with
  | nil => exact .pure []
  | cons w rest ih =>
    refine (compileWired_tracks (inner w List.mem_cons_self)).bind fun _ o _ _ => ?_
    have others := ih fun w' h' => inner w' (List.mem_cons_of_mem _ h')
    exact others.bind fun _ ops _ _ => .pure (o :: ops)

theorem compileLevel_tracks (level : List Step) (fixed : ∀ id ∈ suppliedFrom level, f id = id) :
    Tracks f (Operation.renameAll f) (compileLevel level) (compileLevel level) := by
  induction level using wiredInduction with
  | h level ih =>
    rw [compileLevel_eq]
    rw [suppliedFrom_eq] at fixed
    have own : ∀ s ∈ level, ∀ id, s.suppliedId? = some id → f id = id := by
      intro s hs id hid
      exact fixed id (List.mem_append_left _ (List.mem_filterMap.mpr ⟨s, hs, hid⟩))
    refine (wire_tracks own).bind fun p wired q hwire => compileAll_tracks fun w hw hgroup => ?_
    obtain ⟨drawn, _, wires⟩ := wire_gives hwire
    refine ih wires w hw hgroup fun id hid => fixed id (List.mem_append_right _ ?_)
    have inside : id ∈ w.step.suppliedInside := by rwa [suppliedInside_eq, if_pos hgroup]
    rw [← suppliedInside_wired wires]
    exact List.mem_flatMap.mpr ⟨w, hw, inside⟩

end Compilation

theorem exists_perm_of_nodup {α : Type} [DecidableEq α] {as bs : List α} (ha : as.Nodup)
    (hb : bs.Nodup) (length : as.length = bs.length) :
    ∃ f : Equiv.Perm α, as.map f = bs ∧ ∀ x, x ∉ as → x ∉ bs → f x = x := by
  induction as generalizing bs with
  | nil =>
    obtain rfl := List.eq_nil_of_length_eq_zero length.symm
    exact ⟨.refl α, rfl, fun _ _ _ => rfl⟩
  | cons a as ih =>
    obtain ⟨b, bs, rfl⟩ := List.exists_cons_of_length_eq_add_one length.symm
    obtain ⟨newa, ha⟩ := List.nodup_cons.mp ha
    obtain ⟨newb, hb⟩ := List.nodup_cons.mp hb
    obtain ⟨f, hmap, rest⟩ := ih ha hb (Nat.succ.inj length)
    have other : ∀ x, x ≠ a → f x ≠ f a := fun x hx same => hx (f.injective same)
    -- What goes to a in the images so far changes places with b.
    refine ⟨f.trans (Equiv.swap (f a) b), ?_, fun x hx hx' => ?_⟩
    · have same : as.map (f.trans (Equiv.swap (f a) b)) = as.map f := by
        refine List.map_congr_left fun x hx => ?_
        have hfx : f x ∈ bs := hmap ▸ List.mem_map_of_mem hx
        refine Equiv.swap_apply_of_ne_of_ne (other x ?_) ?_
        · rintro rfl
          exact newa hx
        · intro hb
          exact newb (hb ▸ hfx)
      rw [List.map_cons, same, hmap, Equiv.trans_apply, Equiv.swap_apply_left]
    · obtain ⟨hxa, hx⟩ := not_or.mp (List.mem_cons.not.mp hx)
      obtain ⟨hxb, hx'⟩ := not_or.mp (List.mem_cons.not.mp hx')
      have still := rest x hx hx'
      rw [Equiv.trans_apply, Equiv.swap_apply_of_ne_of_ne (other x hxa) (still.symm ▸ hxb), still]

theorem Vetting.not_fault_exhausted {top : List Step} {last : String} :
    ¬ Fault top (.idsExhausted last) := by
  rintro (⟨_, ⟨⟨⟩⟩ | ⟨_, _, ⟨⟩⟩⟩)

namespace Workflow
open Drawing Pool Compilation

variable {w : Workflow} {settings : Settings} {p q : Pool} {a b : Procedure}

theorem drawing_tracks (w : Workflow) (settings : Settings)
    (fixed : ∀ id ∈ Step.suppliedFrom w.steps, f id = id) :
    Tracks f (Procedure.rename f) (w.drawing settings) (w.drawing settings) := by
  refine (Compilation.compileLevel_tracks w.steps fixed).bind fun _ level _ _ => ?_
  exact Tracks.fresh.bind fun _ id _ _ => .pure _

theorem exists_run (h : w.compile settings = .ok a) : ∃ p q ids,
    Ready settings.supply (Step.suppliedFrom w.steps) p ∧ Gives (w.drawing settings) p a q ∧
      Hands p ids q := by
  obtain ⟨supplied, q, hv, run⟩ := compile_ok h
  have ready : Ready settings.supply (Step.suppliedFrom w.steps) (poolWith settings supplied) := {
    supply := rfl
    taken := fun id hid => mem_reserve.mpr (.inl ((Vetting.suppliedIds_ok hv).2.mem_iff.mpr hid)) }
  obtain ⟨ids, hands, _⟩ := drawing_tracks w settings (f := id) (fun _ _ => rfl) run
  exact ⟨_, q, ids, ready, run, hands⟩

/-- Of two runs the one that draws no more ids is turned into the other by a permutation, and then
draws no fewer either. -/
theorem exists_renaming {supply supply' : Supply} {p' q' : Pool} {ids ids' : List String}
    (ready : Ready supply (Step.suppliedFrom w.steps) p)
    (run : Gives (w.drawing settings) p a q) (hands : Hands p ids q)
    (ready' : Ready supply' (Step.suppliedFrom w.steps) p')
    (run' : Gives (w.drawing settings) p' b q') (hands' : Hands p' ids' q')
    (le : ids.length ≤ ids'.length) :
    ids'.length ≤ ids.length ∧ ∃ f : Equiv.Perm String,
      (∀ id ∈ Step.suppliedFrom w.steps, f id = id) ∧
      (∀ id, f id ≠ id → (∃ n, supply n = id) ∨ ∃ n, supply' n = id) ∧ a.rename f = b := by
  obtain ⟨r, first, _⟩ : ∃ r, Hands p' (ids'.take ids.length) r ∧
      Hands r (ids'.drop ids.length) q' :=
    Hands.of_append (by rwa [List.take_append_drop])
  have length : ids.length = (ids'.take ids.length).length := by
    rw [List.length_take, Nat.min_eq_left le]
  obtain ⟨f, hmap, rest⟩ := exists_perm_of_nodup hands.nodup first.nodup length
  obtain ⟨_, generated⟩ := ready.hands hands
  obtain ⟨_, generated'⟩ := ready'.hands first
  have fixed : ∀ id ∈ Step.suppliedFrom w.steps, f id = id := by
    intro id supplied
    apply rest id
    · exact fun drawn => (generated id drawn).2 supplied
    · exact fun drawn => (generated' id drawn).2 supplied
  have moved : ∀ id, f id ≠ id → (∃ n, supply n = id) ∨ ∃ n, supply' n = id := by
    intro id moves
    by_contra neither
    obtain ⟨outside, outside'⟩ := not_or.mp neither
    apply moves
    apply rest id
    · exact fun drawn => outside (generated id drawn).1
    · exact fun drawn => outside' (generated' id drawn).1
  obtain ⟨drawn, handed, again⟩ := drawing_tracks w settings fixed run
  obtain rfl := handed.unique hands
  -- The renamed run is a run from the second pool, which has only one.
  rw [← hmap] at first
  obtain ⟨same, rfl⟩ := Prod.mk.inj ((again first).symm.trans run')
  have all : ids' = drawn.map f := hands'.unique first
  exact ⟨by rw [all, List.length_map], f, fixed, moved, Except.ok.inj same⟩

theorem refused_iff (w : Workflow) (settings : Settings) (e : CompileError) :
    (w.compile settings = .error e ∧ ∀ last, e ≠ .idsExhausted last) ↔
      Vetting.suppliedIds w.steps = .error e := by
  constructor
  · rintro ⟨h, hlast⟩
    rcases compile_error h with refused | ⟨supplied, q, hv, fails⟩
    · exact refused
    · -- After the vetting only the supply can fail.
      have steady := drawing_steady (Vetting.suppliedIds_ok hv).1 settings
      obtain ⟨last, rfl⟩ := steady.exhausted fails
      exact absurd rfl (hlast last)
  · intro refused
    refine ⟨compile_of_refused refused, ?_⟩
    rintro last rfl
    exact Vetting.not_fault_exhausted (Vetting.suppliedIds_error refused)

end Workflow

/-- The supply decides neither whether vetting refuses a workflow nor for which reason. From two
supplies the workflow compiles to the same procedure but for a permutation of the ids, which keeps
the supplied ids and moves nothing that neither of the supplies contains. -/
theorem supply_only_names (w : Workflow) (settings : Settings) :
    (∀ supply e,
      (w.compile { settings with supply } = .error e ∧ ∀ last, e ≠ .idsExhausted last) ↔
        Vetting.suppliedIds w.steps = .error e) ∧
    ∀ supply supply' p p', w.compile { settings with supply } = .ok p →
      w.compile { settings with supply := supply' } = .ok p' →
      ∃ f : Equiv.Perm String, (∀ id ∈ Step.suppliedFrom w.steps, f id = id) ∧
        (∀ id, f id ≠ id → (∃ n, supply n = id) ∨ ∃ n, supply' n = id) ∧ p.rename f = p' := by
  refine ⟨fun supply e => w.refused_iff _ e, fun supply supply' p p' h h' => ?_⟩
  obtain ⟨pool, q, ids, ready, run, hands⟩ := Workflow.exists_run h
  obtain ⟨pool', q', ids', ready', run', hands'⟩ := Workflow.exists_run h'
  have le : ids.length ≤ ids'.length := by
    rcases Nat.le_total ids.length ids'.length with le | le
    · exact le
    · exact (Workflow.exists_renaming ready' run' hands' ready run hands le).1
  exact (Workflow.exists_renaming ready run hands ready' run' hands' le).2

theorem pumpInspection_renamed : ∃ p p' : Procedure,
    Workflow.pumpInspection.compile Workflow.stuttering = .ok p ∧
      Workflow.pumpInspection.compile
        { Workflow.stuttering with supply := Supply.sequential "pump" } = .ok p' ∧
      ∃ f : Equiv.Perm String, f "id-0009" = "id-0009" ∧ p.rename f = p' := by
  have passes : (Workflow.pumpInspection.compile
      { Workflow.stuttering with supply := Supply.sequential "pump" }).isOk = true := by
    decide +kernel
  obtain ⟨p, h⟩ := Workflow.pumpInspection_compiles
  cases h' : Workflow.pumpInspection.compile
      { Workflow.stuttering with supply := Supply.sequential "pump" } with
  | error e =>
    rw [h'] at passes
    cases passes
  | ok p' =>
    obtain ⟨f, fixed, _, same⟩ :=
      (supply_only_names Workflow.pumpInspection Workflow.stuttering).2 _ _ p p' h h'
    exact ⟨p, p', h, rfl, f, fixed _ (by decide +kernel), same⟩

end FieldProcedure
