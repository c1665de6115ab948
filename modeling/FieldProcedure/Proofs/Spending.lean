import FieldProcedure.Proofs.Compilation

/-! What a drawing leaves behind, whether it succeeds or fails. The pool after it is the pool before
it and what came of some draws: those that hit handed out an identifier, and those that missed only
used up the supply. The two pools determine the identifiers that were handed out between them. -/
namespace FieldProcedure
namespace Pool
open Drawing

variable {p q r : Pool} {last id : String} {ids ids' : List String} {e : CompileError}

theorem seek_missed : ∀ {n : Nat} {p : Pool} {last : String}, p.seek last n = (.error e, q) →
    q = { p with drawn := p.drawn + n }
  | 0, _, _, h => by
    cases h
    rfl
  | n + 1, p, last, h => by
    rw [seek] at h
    split at h
    · rw [seek_missed h]
      simp only [Nat.add_assoc, Nat.add_comm 1]
    · cases h

theorem fresh_drawn_lt (h : Gives fresh p id q) : p.drawn < q.drawn := by
  obtain ⟨k, _, _, _, _, rfl⟩ := seek_gives h
  exact Nat.lt_succ_of_le (Nat.le_add_right _ _)

theorem missed_taken (h : Fails fresh p e q) : q.taken = p.taken := by
  rw [seek_missed h]

theorem missed_drawn_lt (h : Fails fresh p e q) : p.drawn < q.drawn := by
  rw [seek_missed h]
  exact Nat.lt_add_of_pos_right (Nat.succ_pos _)

inductive Spends : Pool → List String → Pool → Prop
  | nothing (p : Pool) : Spends p [] p
  | hit {p q r : Pool} {id : String} {ids : List String} :
    Gives fresh p id q → Spends q ids r → Spends p (id :: ids) r
  | miss {p q r : Pool} {e : CompileError} {ids : List String} :
    Fails fresh p e q → Spends q ids r → Spends p ids r

theorem Hands.spends (h : Hands p ids q) : Spends p ids q := by
  induction h with
  | nothing p => exact .nothing p
  | next hit _ ih => exact .hit hit ih

namespace Spends

theorem append (h : Spends p ids q) (h' : Spends q ids' r) : Spends p (ids ++ ids') r := by
  induction h with
  | nothing => exact h'
  | hit hit _ ih => exact .hit hit (ih h')
  | miss miss _ ih => exact .miss miss (ih h')

theorem drawn_le (h : Spends p ids q) : p.drawn ≤ q.drawn := by
  induction h with
  | nothing => exact Nat.le_refl _
  | hit hit _ ih => exact Nat.le_trans (Nat.le_of_lt (fresh_drawn_lt hit)) ih
  | miss miss _ ih => exact Nat.le_trans (Nat.le_of_lt (missed_drawn_lt miss)) ih

theorem not_back (later : p.drawn < q.drawn) : ¬ Spends q ids p :=
  fun back => Nat.not_le_of_lt later back.drawn_le

theorem unique (h : Spends p ids r) (h' : Spends p ids' r) : ids = ids' := by
  induction h generalizing ids' with
  | nothing p =>
    cases h' with
    | nothing => rfl
    | hit hit rest => exact absurd rest (not_back (fresh_drawn_lt hit))
    | miss miss rest => exact absurd rest (not_back (missed_drawn_lt miss))
  | hit hit rest ih =>
    cases h' with
    | nothing => exact absurd rest (not_back (fresh_drawn_lt hit))
    | hit hit' rest' =>
      cases hit.symm.trans hit'
      rw [ih rest']
    | miss miss' => cases hit.symm.trans miss'
  | miss miss rest ih =>
    cases h' with
    | nothing => exact absurd rest (not_back (missed_drawn_lt miss))
    | hit hit' => cases miss.symm.trans hit'
    | miss miss' rest' =>
      cases miss.symm.trans miss'
      exact ih rest'

theorem mem_taken (h : Spends p ids q) {x : String} : x ∈ q.taken ↔ x ∈ ids ∨ x ∈ p.taken := by
  induction h with
  | nothing => simp
  | hit hit _ ih =>
    rw [ih, mem_fresh hit, List.mem_cons]
    tauto
  | miss miss _ ih => rw [ih, missed_taken miss]

theorem free (h : Spends p ids q) : ∀ x ∈ ids, x ∉ p.taken := by
  induction h with
  | nothing => simp
  | hit hit _ ih =>
    intro x hx used
    rcases List.mem_cons.mp hx with rfl | hx
    · exact fresh_free hit used
    · exact ih x hx ((mem_fresh hit).mpr (.inr used))
  | miss miss _ ih => exact missed_taken miss ▸ ih

theorem nodup (h : Spends p ids q) : ids.Nodup := by
  induction h with
  | nothing => exact List.nodup_nil
  | hit hit rest ih =>
    refine List.nodup_cons.mpr ⟨fun again => ?_, ih⟩
    exact rest.free _ again ((mem_fresh hit).mpr (.inl rfl))
  | miss _ _ ih => exact ih

end Spends

theorem Hands.unique (h : Hands p ids q) (h' : Hands p ids' q) : ids = ids' :=
  h.spends.unique h'.spends

end Pool

namespace Drawing
open Pool Step Wiring Compilation

variable {α β : Type} {m : Drawing α} {f : α → Drawing β} {p q : Pool} {a : α} {e : CompileError}

def OnlyDraws (m : Drawing α) : Prop := ∀ p, ∃ ids, Spends p ids (m p).2

namespace OnlyDraws

theorem pure (a : α) : OnlyDraws (pure a : Drawing α) := fun p => ⟨[], .nothing p⟩

theorem throw (e : CompileError) : OnlyDraws (throw e : Drawing α) := fun p => ⟨[], .nothing p⟩

theorem fresh : OnlyDraws Pool.fresh := by
  intro p
  rcases gives_or_fails Pool.fresh p with ⟨id, q, h⟩ | ⟨e, q, h⟩
  · exact ⟨[id], .hit h (by rw [h]; exact .nothing q)⟩
  · exact ⟨[], .miss h (by rw [h]; exact .nothing q)⟩

theorem bind (hm : OnlyDraws m) (hf : ∀ {p a q}, Gives m p a q → OnlyDraws (f a)) :
    OnlyDraws (m >>= f) := by
  intro p
  obtain ⟨ids, spent⟩ := hm p
  rw [bind_run]
  rcases gives_or_fails m p with ⟨a, q, h⟩ | ⟨e, q, h⟩
  · obtain ⟨ids', spent'⟩ := hf h q
    rw [h] at spent ⊢
    exact ⟨ids ++ ids', spent.append spent'⟩
  · rw [h] at spent ⊢
    exact ⟨ids, spent⟩

end OnlyDraws

theorem idsOf_onlyDraws (steps : List Step) : OnlyDraws (idsOf steps) := by
  induction steps with
  | nil => exact .pure []
  | cons s rest ih =>
    refine .bind ?_ fun _ => ih.bind fun _ => .pure _
    unfold idOf
    split
    · exact .pure _
    · exact .fresh

theorem linksOf_onlyDraws (byIndex : List (Int × String)) (index : Int) (source : String)
    (paths : List Path) : OnlyDraws (linksOf byIndex index source paths) := by
  induction paths with
  | nil => exact .pure []
  | cons path rest ih =>
    rw [linksOf]
    split
    · exact .throw _
    · exact .bind .fresh fun _ => ih.bind fun _ => .pure _

theorem connect_onlyDraws (byIndex : List (Int × String)) (n : Nat)
    (pairs : List (Step × String)) : OnlyDraws (connect byIndex n pairs) := by
  induction pairs generalizing n with
  | nil => exact .pure []
  | cons pair rest ih =>
    exact (linksOf_onlyDraws byIndex _ _ _).bind fun _ => (ih (n + 1)).bind fun _ => .pure _

theorem wire_onlyDraws (level : List Step) : OnlyDraws (wire level) := by
  simp only [wire]
  split
  · exact .throw _
  · exact (idsOf_onlyDraws _).bind fun _ => connect_onlyDraws _ _ _

theorem simple_onlyDraws (w : Wired) : OnlyDraws (simple w) := by
  unfold simple
  split
  · exact .pure _
  · exact .throw _

theorem compileAll_onlyDraws {wired : List Wired} (h : ∀ w ∈ wired, OnlyDraws (compileWired w)) :
    OnlyDraws (compileAll wired) := by
  induction wired with
  | nil => exact .pure []
  | cons w rest ih =>
    refine .bind (h w List.mem_cons_self) fun _ => ?_
    exact (ih fun w' h' => h w' (List.mem_cons_of_mem _ h')).bind fun _ => .pure _

theorem compileLevel_onlyDraws (level : List Step) : OnlyDraws (compileLevel level) := by
  induction level using wiredInduction with
  | h level ih =>
    rw [compileLevel_eq]
    refine (wire_onlyDraws level).bind fun {p wired q} hwire => ?_
    obtain ⟨drawn, _, wires⟩ := wire_gives hwire
    refine compileAll_onlyDraws fun w hw => ?_
    unfold compileWired
    split
    · next hgroup => exact (ih wires w hw hgroup).bind fun _ => .pure _
    · exact simple_onlyDraws w

end Drawing
end FieldProcedure
