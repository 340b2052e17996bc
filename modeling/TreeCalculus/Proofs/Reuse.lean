import TreeCalculus.Proofs.Soundness

/-!
Reuse of proved theorems.

A case split treats a variable as a canonical value, while a theorem may be used for any terms in
the place of its variables. So a theorem whose proof splits a variable need not hold where it is
used: the law `rebuild x = x` holds for canonical values, and not for a reference that nothing
defines. The use is sound wherever the variables that the proof splits stand for terms that
convert to canonical values; the other variables may stand for any terms.

* `Term.TakesValues`, `Judgment.UsesAtValues`: terms that convert to canonical values, and
  judgments at which the split variables of a theorem stand for such terms.
* `Prelude.validOver_of_splitsOnly`: what a complete proof with given split variables proves.
* `reuse_unsound_beyond_values`: reuse in general is not sound.
* `reuse_sound_at_values`: reuse where the split variables stand for terms with values is sound.
-/

namespace TreeCalculus

open Term (Convertible)

/-- A term takes values if every instance of it with canonical values is convertible to a canonical
value. -/
def Term.TakesValues (table : Definitions) (t : Term) : Prop :=
  ∀ σ : Text → Term, (∀ x, (σ x).IsValue) → ∃ v, v.IsValue ∧ Convertible table (t.instantiate σ) v

/-- A tactic splits no variables but those in `split`. -/
def Tactic.SplitsOnly (split : Text → Prop) (j : Judgment) (tactic : Tactic) : Prop :=
  ∀ sel, tactic = .caseSplit sel → ∀ x, j.goal.select sel = .ok (.var x) → split x

/-- Where a theorem is used at a judgment, its variables in `split` stand for terms that take
values. -/
def Judgment.UsesAtValues (table : Definitions) (split : Text → Prop) (thm : Theorem)
    (j : Judgment) : Prop :=
  ∀ bindings, j.matchTheorem thm = some bindings →
    ∀ x ∈ thm.sequent.vars, split x → (j.standsFor thm bindings x).TakesValues table

/-- The tactics other than induction that draw on the prelude, and one more theorem at the judgments
where it is usable. -/
def Prelude.AllowsAlso (thm : Theorem) (usable : Judgment → Prop) (j : Judgment)
    (tactic : Tactic) : Prop :=
  Prelude.Allows tactic ∨ tactic = .useTheorem thm ∧ usable j

/-! ### Validity of what is proved by splitting some variables -/

/-- The terms that a variable may stand for if the variables in `split` are split. -/
def SplitDomain (split : Text → Prop) (x : Text) (t : Term) : Prop :=
  t.vars = [] ∧ (split x → t.IsValue)

/-- What a complete proof without induction proves: the sequent holds for all closed terms in the
place of the variables that are not split. -/
lemma Prelude.validOver_of_splitsOnly {split : Text → Prop} {sequent : Sequent} {p : Proof}
    (h : Proof.Reaches (fun j tactic => Prelude.Allows tactic ∧ tactic.SplitsOnly split j)
      (.start sequent) p)
    (hcomplete : p.isComplete) : sequent.ValidOver Prelude.definitions (SplitDomain split) := by
  refine Proof.validOver_of_isComplete Prelude.definitions_closed
    (fun x t ht => ⟨ht.vars_eq_nil, fun _ => ht⟩) ?_ h hcomplete
    (h.backLink_eq_none fun _ _ ht => ht.1.1)
  intro j tactic ht
  refine Tactic.soundAt_of_drawsOn (fun _ _ hv => hv.1)
    (fun _ => Prelude.validForClosed_of_isTheorem) ?_ ht.1.2
  exact fun sel hsel x hx t hv => hv.2 (ht.2 sel hsel x hx)

/-- Such a sequent also holds for terms that convert to canonical values in the place of the
variables that are split. -/
lemma Judgment.ValidOver.of_convertible {table : Definitions} {split : Text → Prop} {j : Judgment}
    (hj : j.ValidOver table (SplitDomain split)) {σ : Text → Term} (hclosed : ∀ x, (σ x).vars = [])
    (hvalues : ∀ x ∈ j.vars, split x → ∃ v, v.IsValue ∧ Convertible table (σ x) v) :
    j.HoldsUnder table σ := by
  have hstand : ∀ x, ∃ t, SplitDomain split x t ∧ (x ∈ j.vars → Convertible table (σ x) t) := by
    intro x
    by_cases hx : x ∈ j.vars ∧ split x
    · obtain ⟨v, hv, hconv⟩ := hvalues x hx.1 hx.2
      exact ⟨v, ⟨hv.vars_eq_nil, fun _ => hv⟩, fun _ => hconv⟩
    · by_cases hsplit : split x
      · exact ⟨.leaf, ⟨rfl, fun _ => .leaf⟩, fun hmem => absurd ⟨hmem, hsplit⟩ hx⟩
      · exact ⟨σ x, ⟨hclosed x, fun h => absurd h hsplit⟩, fun _ => .refl _⟩
  choose τ hτ hconv using hstand
  exact (holdsUnder_congr hconv).mpr (hj τ hτ)

/-- A use of such a theorem is sound where its split variables stand for terms that take values. -/
lemma Judgment.soundAt_useTheorem {table : Definitions} {split : Text → Prop} {thm : Theorem}
    (hthm : thm.sequent.ValidOver table (SplitDomain split)) {j : Judgment}
    (hj : j.UsesAtValues table split thm) :
    (Tactic.useTheorem thm).SoundAt table (fun _ => Term.IsValue) j := by
  intro bindings hmatch σ hσ
  refine hthm.of_convertible (fun x => ?_) fun x hx hsplit => hj bindings hmatch x hx hsplit σ hσ
  exact Term.vars_instantiate_eq_nil (fun y => (hσ y).vars_eq_nil) _

/-! ### Reuse -/

/-- The law of rebuilding as a theorem. -/
def rebuildTheorem : Theorem := ⟨"rebuild", (({} : Supply).issue rebuildLaw).1⟩

lemma allows_rebuildScript : ∀ call ∈ rebuildScript, Prelude.Allows call.2 := by
  simp [rebuildScript, Prelude.Allows, Tactic.DrawsOn]

/-- Reuse is not sound in general: the law of rebuilding proves `rebuild <u> = <u>` for a reference
that nothing defines, and both sides are normal. -/
theorem reuse_unsound_beyond_values :
    ¬ ∀ (thm : Theorem) (p : Proof), thm.sequent.hypotheses = [] →
      Proof.Reaches (fun _ => Prelude.Allows) (.start thm.sequent) p → p.isComplete →
      ∀ (goal : Sequent) (q : Proof), goal.hypotheses = [] → goal.goal.lhs.vars = [] →
        goal.goal.rhs.vars = [] →
        Proof.Reaches (Prelude.AllowsAlso thm fun _ => True) (.start goal) q → q.isComplete →
        Convertible Prelude.definitions goal.goal.lhs goal.goal.rhs := by
  intro hall
  let s : Session := .start {} { goal := ⟨.app .rebuild (.ref "u"), .ref "u"⟩ }
  have hthm := (Session.start {} rebuildLaw).reaches_runAll rebuildScript
    fun call hcall _ => allows_rebuildScript call hcall
  have hgoal : Proof.Reaches (Prelude.AllowsAlso rebuildTheorem fun _ => True) s.proof
      (s.run "root" (.useTheorem rebuildTheorem)).session.proof :=
    .single (.call s.supply "root" _ fun _ _ => .inr ⟨rfl, trivial⟩)
  have hconv := hall rebuildTheorem _ rfl hthm (by decide) _ _ rfl rfl rfl hgoal (by decide +kernel)
  have heq : Term.app .rebuild (.ref "u") = .ref "u" :=
    hconv.eq_of_isNormal (by decide) (by decide) (by decide) (by decide)
  cases heq

/-- **Reuse at values**: let a theorem have a complete proof without induction that draws on the
prelude and splits no variables but those in `split`. If a run without induction that draws on the
prelude also uses this theorem, only where its variables in `split` stand for terms that take
values, and completes the proof of a goal without variables and hypotheses, then the sides of the
goal are convertible. -/
theorem reuse_sound_at_values {split : Text → Prop} {thm : Theorem} {p : Proof}
    (hthm : Proof.Reaches (fun j tactic => Prelude.Allows tactic ∧ tactic.SplitsOnly split j)
      (.start thm.sequent) p)
    (hp : p.isComplete) {goal : Sequent} (hhyps : goal.hypotheses = [])
    (hlhs : goal.goal.lhs.vars = []) (hrhs : goal.goal.rhs.vars = []) {q : Proof}
    (hgoal : Proof.Reaches
      (Prelude.AllowsAlso thm (Judgment.UsesAtValues Prelude.definitions split thm))
      (.start goal) q)
    (hq : q.isComplete) : Convertible Prelude.definitions goal.goal.lhs goal.goal.rhs := by
  have hvalid := Prelude.validOver_of_splitsOnly hthm hp
  refine Proof.convertible_of_isComplete Prelude.definitions_closed ?_ hhyps hlhs hrhs hgoal hq
  rintro j tactic (htactic | ⟨rfl, huse⟩)
  · exact ⟨htactic.1, Prelude.soundAt_of_allows htactic j⟩
  · exact ⟨by simp, Judgment.soundAt_useTheorem hvalid huse⟩

/-- The law of rebuilding may be used for `I K`, which converts to a stem. -/
theorem reuse_sound_at_values_rebuild :
    let s : Session := .start {} { goal := ⟨.app .rebuild (.app (.ref "I") (.ref "K")),
      .app (.ref "I") (.ref "K")⟩ }
    ((Session.start {} rebuildLaw).runAll rebuildScript).proof.isComplete ∧
      s.proof.tree.label.sequent.UsesAtValues Prelude.definitions (fun _ => True) rebuildTheorem ∧
      (s.run "root" (.useTheorem rebuildTheorem)).session.proof.isComplete ∧
      Convertible Prelude.definitions (.app .rebuild (.app (.ref "I") (.ref "K")))
        (.app (.ref "I") (.ref "K")) := by
  intro s
  have hcomplete : ((Session.start {} rebuildLaw).runAll rebuildScript).proof.isComplete := by
    decide
  have hthm : Proof.Reaches (fun j tactic => Prelude.Allows tactic ∧
      tactic.SplitsOnly (fun _ => True) j) (.start rebuildTheorem.sequent)
      ((Session.start {} rebuildLaw).runAll rebuildScript).proof :=
    (Session.start {} rebuildLaw).reaches_runAll rebuildScript
      fun call hcall _ => ⟨allows_rebuildScript call hcall, fun _ _ _ _ => trivial⟩
  have huse : s.proof.tree.label.sequent.UsesAtValues Prelude.definitions (fun _ => True)
      rebuildTheorem := by
    intro bindings hmatch x hx _ σ _
    obtain rfl : x = "x" := by
      have hvars : rebuildTheorem.sequent.vars = ["x"] := by decide
      simpa [hvars] using hx
    -- the right side of the law is its variable, and the right side of the goal is `I K`
    have hstands : s.proof.tree.label.sequent.standsFor rebuildTheorem bindings "x" =
        .app (.ref "I") (.ref "K") :=
      congrArg Equation.rhs (Equation.subst_of_matchAgainst hmatch)
    rw [hstands]
    exact ⟨.stem .leaf, .stem .leaf, (Prelude.convertible_I _).trans (.unfold (by decide))⟩
  have hgoal : Proof.Reaches (Prelude.AllowsAlso rebuildTheorem
      (Judgment.UsesAtValues Prelude.definitions (fun _ => True) rebuildTheorem)) s.proof
      (s.run "root" (.useTheorem rebuildTheorem)).session.proof := by
    refine .single (.call s.supply "root" _ fun node hnode => .inr ⟨rfl, ?_⟩)
    obtain rfl : s.proof.tree.label = node := Option.some.inj hnode
    exact huse
  have hdone : (s.run "root" (.useTheorem rebuildTheorem)).session.proof.isComplete := by
    decide +kernel
  exact ⟨hcomplete, huse, hdone, reuse_sound_at_values hthm hcomplete rfl rfl rfl hgoal hdone⟩

end TreeCalculus
