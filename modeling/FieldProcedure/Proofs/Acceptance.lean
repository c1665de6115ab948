import FieldProcedure.Proofs.Compilation
import FieldProcedure.Proofs.Vetting

/-! What compiles. Vetting and compilation walk the same levels and agree on them: in a tree that
passes the vetting only a draw can fail, and none does if the supply never repeats itself. So the
workflows that compile are the well-formed ones, and an error other than that of a draw names a
fault of the tree. -/
namespace FieldProcedure
namespace Compilation
open Drawing Wiring Step Vetting

variable {level : List Step} {wired : List Wired} {drawn : List String}

theorem LevelFit.framed_distinct (h : LevelFit level) :
    ((framed level).map (·.index)).Nodup := by
  have away : ∀ n, n = startIndex ∨ n = finishIndex → n ∉ level.map (·.index) := by
    intro n hn hmem
    obtain ⟨s, hs, rfl⟩ := List.mem_map.mp hmem
    exact hn.elim (h.unreserved s hs).1 (h.unreserved s hs).2
  have finish : (level.map (·.index) ++ [finishIndex]).Nodup :=
    h.distinct.append (List.nodup_singleton _) (by simpa using away finishIndex (.inr rfl))
  unfold framed
  rw [List.cons_append, List.map_cons, List.map_append]
  refine List.nodup_cons.mpr ⟨?_, finish⟩
  simp only [List.mem_append, not_or]
  exact ⟨away startIndex (.inl rfl), by decide⟩

theorem LevelFit.wire_steady (h : LevelFit level) : Steady (wire level) := by
  refine Wiring.wire_steady (framed_distinct h) fun s hs path hpath => ?_
  unfold framed
  rw [List.map_append, List.map_cons]
  rcases h.resolved s hs path hpath with start | finish | sibling
  · simp [start, opening]
  · simp [finish, closing]
  · exact List.mem_append_left _ (List.mem_cons_of_mem _ sibling)

theorem selection_ok {s : Step} (h : s.config.flag "dynamic" false = true →
    ∃ o ∈ s.options, Text.isAllBlank o = false) : ∃ a, selection s = .ok a := by
  simp only [selection]
  split
  · next hdynamic =>
    obtain ⟨o, ho, filled⟩ := h hdynamic
    have source : Text.trim o ∈ s.options.filterMap Text.trimmed? :=
      List.mem_filterMap.mpr ⟨o, ho, by simp [Text.trimmed?, filled]⟩
    split
    · next none =>
      rw [none] at source
      cases source
    · exact ⟨_, rfl⟩
  · exact ⟨_, rfl⟩

theorem act_ok {s : Step} (h : s.kind = .selection → s.config.flag "dynamic" false = true →
    ∃ o ∈ s.options, Text.isAllBlank o = false) : ∃ a, act s = .ok a := by
  unfold act
  split
  case h_10 hkind => exact selection_ok (h hkind)
  all_goals exact ⟨_, rfl⟩

theorem compileAll_steady (h : ∀ w ∈ wired, Steady (compileWired w)) :
    Steady (compileAll wired) := by
  induction wired with
  | nil => exact .pure []
  | cons w rest ih =>
    refine .bind (h w List.mem_cons_self) fun _ => ?_
    exact (ih fun w' h' => h w' (List.mem_cons_of_mem _ h')).bind fun _ => .pure _

theorem compileLevel_steady (level : List Step) (fit : ∀ inner ∈ levelsFrom level, LevelFit inner) :
    Steady (compileLevel level) := by
  induction level using levelInduction with
  | h level ih =>
    have here : LevelFit level := fit level List.mem_cons_self
    rw [compileLevel_eq]
    refine .bind (LevelFit.wire_steady here) fun {p wired q} hwire => ?_
    refine compileAll_steady fun w hw => ?_
    obtain ⟨drawn, _, wires⟩ := wire_gives hwire
    obtain ⟨k, hk⟩ := List.mem_iff_getElem?.mp hw
    obtain ⟨s, hs⟩ := wires.exists_step hk
    have alike := alike_step wires hs hk
    unfold compileWired
    split
    · next hgroup =>
      rw [alike.kind] at hgroup
      obtain ⟨i, _, hs⟩ := getElem?_authored hs (by rw [hgroup]; decide)
      have hmem := List.mem_of_getElem? hs
      rw [alike.children]
      exact (ih s hmem fun inner hinner =>
        fit inner (mem_levelsFrom_of_group hmem hgroup hinner)).bind fun _ => .pure _
    · -- Wiring leaves alone what the act of a step hangs on.
      unfold simple
      obtain ⟨a, ha⟩ : ∃ a, act w.step = .ok a := by
        refine act_ok ?_
        rw [alike.kind, alike.config, alike.options]
        intro hkind
        obtain ⟨i, _, hs⟩ := getElem?_authored hs (by rw [hkind]; decide)
        exact here.sourced s (List.mem_of_getElem? hs) hkind
      rw [ha]
      exact .pure _

end Compilation

open Vetting Drawing

theorem Workflow.drawing_steady {w : Workflow} (h : WellFormed w.steps) (settings : Settings) :
    Steady (w.drawing settings) :=
  (Compilation.compileLevel_steady w.steps h.fit).bind fun _ => .bind .fresh fun _ => .pure _

/-- With a supply that never repeats itself, the well-formed workflows are those that compile. With
any supply, what passes the vetting can only run out of identifiers, and whatever else is reported
is a fault of the workflow. -/
theorem compiles_iff_wellFormed (w : Workflow) (settings : Settings) :
    (Function.Injective settings.supply →
      ((∃ p, w.compile settings = .ok p) ↔ WellFormed w.steps)) ∧
    ∀ e, w.compile settings = .error e →
      ((∃ ids, suppliedIds w.steps = .ok ids) → ∃ last, e = .idsExhausted last) ∧
      ((∃ last, e = .idsExhausted last) ∨ Fault w.steps e) := by
  refine ⟨fun hs => ⟨?_, fun h => ?_⟩, fun e h => ?_⟩
  · rintro ⟨p, h⟩
    obtain ⟨supplied, _, hv, _⟩ := Workflow.compile_ok h
    exact (suppliedIds_ok hv).1
  · obtain ⟨supplied, hv⟩ := suppliedIds_ok_iff.mpr h
    have steady := Workflow.drawing_steady h settings
    obtain ⟨p, q, hp⟩ := steady.gives (p := Workflow.poolWith settings supplied) hs
    exact ⟨p, (Workflow.compile_of_passed hv).trans (congrArg Prod.fst hp)⟩
  · rcases Workflow.compile_error h with refused | ⟨supplied, q, hv, fails⟩
    · refine ⟨?_, .inr (suppliedIds_error refused)⟩
      rintro ⟨ids, passed⟩
      cases refused.symm.trans passed
    · have exhausted := (Workflow.drawing_steady (suppliedIds_ok hv).1 settings).exhausted fails
      exact ⟨fun _ => exhausted, .inl exhausted⟩

def Workflow.strokes : Settings where
  supply n := String.ofList (List.replicate n '|')
  modified := ⟨2024, 3, 1, 9, 30, 15, 0⟩

def Workflow.constant : Settings where
  supply _ := "x"
  modified := ⟨2024, 3, 1, 9, 30, 15, 0⟩

theorem pumpInspection_accepted :
    Function.Injective Workflow.strokes.supply ∧
      (∃ p, Workflow.pumpInspection.compile Workflow.strokes = .ok p) ∧
      ∃ e, Workflow.pumpInspection.compile Workflow.constant = .error e ∧
        ∃ last, e = .idsExhausted last := by
  have injective : Function.Injective Workflow.strokes.supply := by
    intro m n h
    simpa [Workflow.strokes] using congrArg String.length h
  have passed : ∃ ids, suppliedIds Workflow.pumpInspection.steps = .ok ids := ⟨["id-0009"], by rfl⟩
  have dry : (Workflow.pumpInspection.compile Workflow.constant).isOk = false := by decide +kernel
  refine ⟨injective, ?_, ?_⟩
  · have iff := (compiles_iff_wellFormed Workflow.pumpInspection Workflow.strokes).1 injective
    exact iff.mpr (suppliedIds_ok_iff.mp passed)
  · cases h : Workflow.pumpInspection.compile Workflow.constant with
    | ok p =>
      rw [h] at dry
      cases dry
    | error e =>
      have error := (compiles_iff_wellFormed Workflow.pumpInspection Workflow.constant).2 e h
      exact ⟨e, rfl, error.1 passed⟩

end FieldProcedure
