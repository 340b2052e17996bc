import TreeCalculus.Proofs.Soundness

/-!
Consistency of the calculus over the prelude.

Without induction, a run that draws on the prelude proves an equation between two closed normal
terms only if they are the same term: the sides of a proved equation are convertible, and
convertible normal terms without references are equal. Reflexivity proves the equations that are
left.

* `Session.isComplete_run_reflexivity`: reflexivity completes the proof of `t = t`.
* `complete_runs_of_normal_terms`: between closed normal terms, exactly the equations `t = t` have
  complete proofs.
-/

namespace TreeCalculus

/-- Reflexivity at the root completes the proof of an equation with equal sides. -/
lemma Session.isComplete_run_reflexivity (supply : Supply) (t : Term) :
    ((Session.start supply { goal := ⟨t, t⟩ }).run Proof.rootId
      .reflexivity).session.proof.isComplete := by
  set s := Session.start supply { goal := ⟨t, t⟩ }
  have hnode : s.proof.openNode? Proof.rootId = some s.proof.tree.label := rfl
  have hclosing : Tactic.closing s.proof Proof.rootId s.proof.tree.label .reflexivity =
      .ok { rule := .reflexivity } :=
    Judgment.byReflexivity_eq_ok.mpr ⟨rfl, rfl⟩
  rw [Session.run, hnode]
  simp only [hclosing]
  rfl

/-- **Consistency**: let `a` and `b` be normal terms without variables and references. If they
differ, no run without induction that draws on the prelude completes a proof of `a = b`. If they do
not, some run does. -/
theorem complete_runs_of_normal_terms {a b : Term} (ha : a.isNormal) (hb : b.isNormal)
    (havars : a.vars = []) (hbvars : b.vars = []) (harefs : a.refs = []) (hbrefs : b.refs = [])
    (supply : Supply) :
    let first := (Session.start supply { goal := ⟨a, b⟩ }).proof
    (a ≠ b → ∀ p, Proof.Reaches (fun _ => Prelude.Allows) first p →
      p.isComplete = false) ∧
    (a = b → ∃ p, Proof.Reaches (fun _ => Prelude.Allows) first p ∧
      p.isComplete) := by
  intro first
  refine ⟨fun hab p hp => ?_, ?_⟩
  · by_contra hcomplete
    have hconv : Term.Convertible Prelude.definitions a b :=
      Proof.convertible_of_isComplete Prelude.definitions_closed
        (fun j _ ht => ⟨ht.1, Prelude.soundAt_of_allows ht j⟩) rfl havars hbvars hp
        (by simpa using hcomplete)
    exact hab (hconv.eq_of_isNormal ha (by simp [harefs]) hb (by simp [hbrefs]))
  · rintro rfl
    refine ⟨_, .single (.call (supply.issue { goal := ⟨a, a⟩ }).2 Proof.rootId .reflexivity ?_),
      Session.isComplete_run_reflexivity supply a⟩
    exact fun _ _ => ⟨by simp, trivial⟩

/-- An attempt to prove that the leaf is a stem: a middle term with a new variable, case splits on
it, a reference that is unfolded, and a theorem of the prelude. -/
def detour : List (Text × Tactic) :=
  [("root", .transitivity (.var "x")), ("root.0", .caseSplit ⟨.rhs, []⟩),
   ("root.0.0", .reflexivity), ("root.1", .caseSplit ⟨.lhs, []⟩), ("root.1.1", .congruence),
   ("root.1.1.0", .reflexivity),
   ("root.1.0", .transitivity (.app (.ref "I") .leaf)), ("root.1.0.0", .symmetry),
   ("root.1.0.0.0", .useTheorem ((Prelude.theorems {}).1.get ⟨2, by decide⟩)),
   ("root.1.0.1", .unfold ⟨.lhs, [.left]⟩ Prelude.definitions)]

/-- All calls of the attempt succeed, and the proof stays open. -/
theorem complete_runs_of_normal_terms_detour :
    let s : Session := .start {} { goal := ⟨.leaf, .stem .leaf⟩ }
    (Term.leaf : Term).isNormal ∧ (Term.stem .leaf : Term).isNormal ∧
      (Term.leaf : Term) ≠ .stem .leaf ∧
      (s.runAll detour).proof.tree.nodes.length = 15 ∧
      (s.runAll detour).proof.isComplete = false := by
  intro s
  have hallowed : ∀ call ∈ detour, ∀ _ : Judgment, Prelude.Allows call.2 := by
    have hmem := List.get_mem (Prelude.theorems {}).1 ⟨2, by decide⟩
    simpa [detour, Prelude.Allows, Tactic.DrawsOn] using ⟨{}, hmem⟩
  exact ⟨by decide, by decide, by decide, by decide +kernel,
    (complete_runs_of_normal_terms (by decide) (by decide) rfl rfl rfl rfl {}).1 (by decide) _
      (s.reaches_runAll detour hallowed)⟩

end TreeCalculus
