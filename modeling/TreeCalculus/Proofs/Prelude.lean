import TreeCalculus.Proofs.Validity

/-!
The prelude is sound.

The definitions of the prelude have no variables, and its theorems hold for all terms: `K y z`
reduces to `y`, `False y z` to `z`, and `I x` to `x` once the references are unfolded.

* `Prelude.definitions_closed`: the definitions have no variables.
* `Prelude.IsTheorem`, `Prelude.validForClosed_of_isTheorem`: the theorems and their validity.
* `Prelude.Allows`, `Prelude.soundAt_of_allows`: tactics other than induction that draw on the
  prelude, and their soundness.
-/

namespace TreeCalculus.Prelude

open Term (Convertible)

lemma definitions_closed : definitions.Closed := by
  intro name body h
  simp only [definitions, Table.find?, Table.lookup_cons] at h
  split_ifs at h
  · cases h; rfl
  · cases h; rfl
  · cases h; rfl
  · cases h

/-- A theorem of the prelude, whatever the name of its sequent. -/
def IsTheorem (thm : Theorem) : Prop := ∃ supply, thm ∈ (theorems supply).1

/-! ### Reductions of the prelude -/

/-- `K t u` converts to `t`. -/
lemma convertible_K (t u : Term) :
    Convertible definitions (.app (.app (.ref "K") t) u) t := by
  have hK : Convertible definitions (.ref "K") (.stem .leaf) := .unfold (by decide)
  have hunfold : Convertible definitions (.app (.app (.ref "K") t) u)
      (.app (.app (.stem .leaf) t) u) := .app (.app hK (.refl t)) (.refl u)
  exact hunfold.trans (.contract rfl)

/-- `False t u` converts to `u`. -/
lemma convertible_False (t u : Term) :
    Convertible definitions (.app (.app (.ref "False") t) u) u := by
  have hFalse : Convertible definitions (.ref "False") (.stem (.stem (.ref "K"))) :=
    .unfold (by decide)
  have hunfold : Convertible definitions (.app (.app (.ref "False") t) u)
      (.app (.app (.stem (.stem (.ref "K"))) t) u) := .app (.app hFalse (.refl t)) (.refl u)
  have hcontract : Convertible definitions (.app (.app (.stem (.stem (.ref "K"))) t) u)
      (.app (.app (.ref "K") u) (.app t u)) := .contract rfl
  exact (hunfold.trans hcontract).trans (convertible_K u (.app t u))

/-- `I t` converts to `t`. -/
lemma convertible_I (t : Term) : Convertible definitions (.app (.ref "I") t) t := by
  have hI : Convertible definitions (.ref "I") (.app (.ref "False") (.ref "K")) :=
    .unfold (by decide)
  exact (Convertible.app hI (.refl t)).trans (convertible_False (.ref "K") t)

/-- The theorems of the prelude hold for all closed terms. -/
lemma validForClosed_of_isTheorem {thm : Theorem} (h : IsTheorem thm) :
    thm.sequent.ValidForClosed definitions := by
  obtain ⟨supply, hthm⟩ := h
  have hstatements : (theorems supply).1.map (fun thm => thm.sequent.toJudgment) =
      statements.map Prod.snd := rfl
  have hstatement : thm.sequent.toJudgment ∈ statements.map Prod.snd :=
    hstatements ▸ List.mem_map_of_mem hthm
  simp only [statements, List.map_cons, List.map_nil, List.mem_cons, List.not_mem_nil,
    or_false] at hstatement
  intro σ _
  obtain hstatement | hstatement | hstatement := hstatement
  · rw [hstatement]
    exact fun _ => convertible_K _ _
  · rw [hstatement]
    exact fun _ => convertible_False _ _
  · rw [hstatement]
    exact fun _ => convertible_I _

/-! ### Tactics that draw on the prelude -/

/-- Tactics other than induction that unfold definitions of the prelude only, and use theorems of
the prelude only. -/
def Allows (tactic : Tactic) : Prop :=
  tactic ≠ .induction ∧ tactic.DrawsOn definitions IsTheorem

/-- Tactics that draw on the prelude are sound for canonical values. -/
lemma soundAt_of_allows {tactic : Tactic} (h : Allows tactic) (j : Judgment) :
    tactic.SoundAt definitions (fun _ => Term.IsValue) j :=
  Tactic.soundAt_of_drawsOn (fun _ _ hv => hv.vars_eq_nil)
    (fun _ => validForClosed_of_isTheorem) (fun _ _ _ _ _ hv => hv) h.2

end TreeCalculus.Prelude
