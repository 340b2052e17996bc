import Mathlib.Logic.Function.Basic
import TreeCalculus.Proofs.Closings
import TreeCalculus.Proofs.Conversion
import TreeCalculus.Proofs.Matching

/-!
Validity of judgments, and what each tactic does to it.

An equation holds under an assignment of terms to variables if its sides become convertible. A
judgment is valid over given domains of its variables if its goal holds under every assignment in
the domains under which its hypotheses hold. For each tactic: if the judgments that it leaves are
valid, so is the judgment that it closes. Most tactics keep the assignment; a case split goes to
another one, in which fresh variables stand for the arguments of a stem or a fork.

* `Judgment.HoldsUnder`, `Judgment.ValidOver`, `Judgment.Valid`, `Judgment.ValidForClosed`: truth
  under an assignment, validity over domains, for canonical values, and for all terms without
  variables.
* `Judgment.standsFor`: what a variable of a theorem stands for where the theorem is used.
* `Tactic.SoundAt`, `Tactic.validOver_of_closing`: the condition under which a call is sound, and
  that it is.
* `Tactic.DrawsOn`, `Tactic.soundAt_of_drawsOn`: calls that use one table of definitions, and
  theorems of one kind.
-/

namespace TreeCalculus

open Term (Convertible)

/-- An equation holds under an assignment if its sides become convertible. -/
def Equation.HoldsUnder (table : Definitions) (σ : Text → Term) (e : Equation) : Prop :=
  Convertible table (e.lhs.instantiate σ) (e.rhs.instantiate σ)

namespace Judgment

/-- A judgment holds under an assignment if its goal does or one of its hypotheses does not. -/
def HoldsUnder (table : Definitions) (σ : Text → Term) (j : Judgment) : Prop :=
  (∀ h ∈ j.hypotheses, h.HoldsUnder table σ) → j.goal.HoldsUnder table σ

/-- A judgment is valid over domains of its variables if it holds under every assignment in them. -/
def ValidOver (table : Definitions) (domain : Text → Term → Prop) (j : Judgment) : Prop :=
  ∀ σ, (∀ x, domain x (σ x)) → j.HoldsUnder table σ

/-- A judgment is valid if it holds for canonical values. -/
def Valid (table : Definitions) (j : Judgment) : Prop := j.ValidOver table fun _ => Term.IsValue

/-- A judgment is valid for closed terms if it holds for all terms without variables. -/
def ValidForClosed (table : Definitions) (j : Judgment) : Prop :=
  j.ValidOver table fun _ t => t.vars = []

/-! ### Assignments -/

variable {table : Definitions} {j : Judgment} {σ τ : Text → Term}

/-- The truth of a judgment depends only on what its variables stand for, up to conversion. -/
lemma holdsUnder_congr (h : ∀ x ∈ j.vars, Convertible table (σ x) (τ x)) :
    j.HoldsUnder table σ ↔ j.HoldsUnder table τ := by
  have hsides : ∀ e ∈ j.goal :: j.hypotheses,
      e.HoldsUnder table σ ↔ e.HoldsUnder table τ := by
    intro e he
    have hl : Convertible table (e.lhs.instantiate σ) (e.lhs.instantiate τ) :=
      .instantiate_congr fun x hx => h x (mem_vars.mpr ⟨e, he, .inl hx⟩)
    have hr : Convertible table (e.rhs.instantiate σ) (e.rhs.instantiate τ) :=
      .instantiate_congr fun x hx => h x (mem_vars.mpr ⟨e, he, .inr hx⟩)
    exact ⟨fun heq => (hl.symm.trans heq).trans hr, fun heq => (hl.trans heq).trans hr.symm⟩
  have hhyps : (∀ e ∈ j.hypotheses, e.HoldsUnder table σ) ↔
      ∀ e ∈ j.hypotheses, e.HoldsUnder table τ :=
    forall₂_congr fun e he => hsides e (List.mem_cons_of_mem _ he)
  rw [HoldsUnder, HoldsUnder, hhyps, hsides j.goal List.mem_cons_self]

/-- A substitution in a judgment is a change of the assignment. -/
lemma holdsUnder_subst {s : Substitution} :
    (j.subst s).HoldsUnder table σ ↔
      j.HoldsUnder table fun x => (s.value x).instantiate σ := by
  have hside : ∀ t : Term, (t.subst s).instantiate σ =
      t.instantiate fun x => (s.value x).instantiate σ :=
    Term.instantiate_instantiate s.value σ
  simp only [HoldsUnder, subst, List.forall_mem_map, Equation.HoldsUnder, Equation.subst, hside]

/-! ### Tactics that keep the assignment -/

variable {closing : Closing}

lemma holdsUnder_of_byReflexivity (h : j.byReflexivity = .ok closing) : j.HoldsUnder table σ := by
  obtain ⟨heq, -⟩ := byReflexivity_eq_ok.mp h
  intro _
  rw [Equation.HoldsUnder, heq]
  exact .refl _

lemma holdsUnder_of_bySymmetry (h : j.bySymmetry = .ok closing)
    (hsub : ∀ g ∈ closing.subgoals, g.HoldsUnder table σ) : j.HoldsUnder table σ := by
  cases h
  intro hyps
  have hflip := hsub (j.withGoal j.goal.flip) (by simp) hyps
  exact hflip.symm

lemma holdsUnder_of_byTransitivity {mid : Term} (h : j.byTransitivity mid = .ok closing)
    (hsub : ∀ g ∈ closing.subgoals, g.HoldsUnder table σ) : j.HoldsUnder table σ := by
  cases h
  intro hyps
  have hleft := hsub (j.withGoal ⟨j.goal.lhs, mid⟩) (by simp) hyps
  have hright := hsub (j.withGoal ⟨mid, j.goal.rhs⟩) (by simp) hyps
  exact hleft.trans hright

lemma holdsUnder_of_byCongruence (h : j.byCongruence = .ok closing)
    (hsub : ∀ g ∈ closing.subgoals, g.HoldsUnder table σ) : j.HoldsUnder table σ := by
  obtain ⟨a, b, c, d, hgoal, rfl⟩ := byCongruence_eq_ok.mp h
  intro hyps
  have hleft := hsub (j.withGoal ⟨a, c⟩) (by simp) hyps
  have hright := hsub (j.withGoal ⟨b, d⟩) (by simp) hyps
  rw [hgoal]
  exact .app hleft hright

lemma holdsUnder_of_byReduction (htable : table.Closed) {side : Side}
    (h : j.byReduction side = .ok closing)
    (hsub : ∀ g ∈ closing.subgoals, g.HoldsUnder table σ) : j.HoldsUnder table σ := by
  obtain ⟨t, hstep, rfl⟩ := byReduction_eq_ok.mp h
  intro hyps
  have hgoal := hsub (j.withGoal (j.goal.withSide side t)) (by simp) hyps
  have hconv : Convertible table ((j.goal.side side).instantiate σ) (t.instantiate σ) :=
    (Convertible.of_step? hstep).instantiate htable σ
  cases side with
  | lhs => exact hconv.trans hgoal
  | rhs => exact Convertible.trans hgoal hconv.symm

/-- Replacing the selected subterm by one that is convertible to it, as far as the hypotheses
hold. -/
lemma holdsUnder_of_replacing {sel : Selection} {selected new : Term}
    (hsel : j.goal.select sel = .ok selected) (h : j.replacing sel new = .ok closing)
    (hconv : (∀ e ∈ j.hypotheses, e.HoldsUnder table σ) →
      Convertible table (selected.instantiate σ) (new.instantiate σ))
    (hsub : ∀ g ∈ closing.subgoals, g.HoldsUnder table σ) : j.HoldsUnder table σ := by
  obtain ⟨goal, hgoal, rfl⟩ := replacing_eq_ok.mp h
  intro hyps
  have hnew := hsub (j.withGoal goal) (by simp) hyps
  obtain ⟨hl, hr⟩ := Equation.rel_replace
    (R := fun t u => Convertible table (t.instantiate σ) (u.instantiate σ))
    (fun t => .refl _) .app hsel hgoal (hconv hyps)
  exact (hl.trans hnew).trans hr.symm

lemma holdsUnder_of_byRewrite {sel : Selection} {index : Int}
    (h : j.byRewrite sel index = .ok closing)
    (hsub : ∀ g ∈ closing.subgoals, g.HoldsUnder table σ) : j.HoldsUnder table σ := by
  obtain ⟨hyp, hindex, hsel, hr⟩ := byRewrite_eq_ok.mp h
  have hmem : hyp ∈ j.hypotheses := by
    rw [hypothesis?] at hindex
    split_ifs at hindex
    exact List.mem_of_getElem? hindex
  exact holdsUnder_of_replacing hsel hr (fun hyps => hyps hyp hmem) hsub

lemma holdsUnder_of_byUnfolding (htable : table.Closed) {sel : Selection}
    (h : j.byUnfolding sel table = .ok closing)
    (hsub : ∀ g ∈ closing.subgoals, g.HoldsUnder table σ) : j.HoldsUnder table σ := by
  obtain ⟨name, body, hsel, hbody, hr⟩ := byUnfolding_eq_ok.mp h
  refine holdsUnder_of_replacing hsel hr (fun _ => ?_) hsub
  rw [Term.instantiate_eq_self (htable name body hbody)]
  exact .unfold hbody

/-! ### Theorems -/

/-- What a variable of a theorem stands for where the theorem is used at a judgment. -/
def standsFor (j : Judgment) (thm : Theorem) (bindings : Substitution) (x : Text) : Term :=
  ((Term.var x).rename (j.renamingApart thm.sequent.toJudgment)).subst bindings

/-- An instance of a term of a theorem is that term with every variable replaced by what it stands
for. -/
lemma subst_rename_eq {thm : Theorem} {bindings : Substitution} (t : Term) :
    (t.rename (j.renamingApart thm.sequent.toJudgment)).subst bindings =
      t.instantiate (j.standsFor thm bindings) :=
  Term.instantiate_instantiate _ _ t

/-- A theorem may be used where it holds of what its variables stand for: the goal is then the goal
of the theorem, and the subgoals are its hypotheses. -/
lemma holdsUnder_of_byTheorem {thm : Theorem} (h : j.byTheorem thm = .ok closing)
    (hthm : ∀ bindings, j.matchTheorem thm = some bindings →
      thm.sequent.HoldsUnder table fun x => (j.standsFor thm bindings x).instantiate σ)
    (hsub : ∀ g ∈ closing.subgoals, g.HoldsUnder table σ) : j.HoldsUnder table σ := by
  obtain ⟨bindings, hmatch, rfl⟩ := byTheorem_eq_ok.mp h
  have hinst : ∀ e : Equation,
      ((e.rename (j.renamingApart thm.sequent.toJudgment)).subst bindings).HoldsUnder table σ ↔
        e.HoldsUnder table fun x => (j.standsFor thm bindings x).instantiate σ := by
    intro e
    rw [Equation.HoldsUnder, Equation.HoldsUnder, Equation.rename, Equation.subst]
    simp only [subst_rename_eq, Term.instantiate_instantiate]
  intro hyps
  rw [← Equation.subst_of_matchAgainst hmatch, hinst]
  refine hthm bindings hmatch fun e he => ?_
  rw [← hinst]
  exact hsub _ (List.mem_map_of_mem he) hyps

/-! ### Case splits -/

/-- Replacing a variable `x` by a term that has the value of `x` under an assignment `τ` that agrees
with `σ` on the other variables. -/
lemma holdsUnder_of_subst_single {x : Text} {t : Term} (hx : t.instantiate τ = σ x)
    (hagree : ∀ z ∈ j.vars, z ≠ x → τ z = σ z)
    (h : (j.subst ⟨[(x, t)]⟩).HoldsUnder table τ) : j.HoldsUnder table σ := by
  rw [holdsUnder_subst] at h
  refine (holdsUnder_congr fun z hz => ?_).mp h
  have heq : (Substitution.value ⟨[(x, t)]⟩ z).instantiate τ = σ z := by
    rw [Substitution.value_single]
    split_ifs with hzx
    · rw [hx, hzx]
    · exact hagree z hz hzx
  exact heq ▸ .refl _

/-- The three cases of a variable that ranges over canonical values are exhaustive: the fresh
variables stand for the arguments of its value. -/
lemma validOver_of_cases {domain : Text → Term → Prop} {x : Text}
    (hx : ∀ t, domain x t → Term.IsValue t) (hvalue : ∀ y t, Term.IsValue t → domain y t)
    (hsub : ∀ g ∈ j.cases x, g.ValidOver table domain) : j.ValidOver table domain := by
  intro σ hσ
  obtain ⟨y, z, hy, hz, hzy, hcases⟩ := j.exists_fresh_cases x
  have hupdate : ∀ (τ : Text → Term) u v, (∀ x, domain x (τ x)) → Term.IsValue v →
      ∀ x, domain x (Function.update τ u v x) := by
    intro τ u v hτ hv x
    by_cases hxu : x = u
    · rw [hxu, Function.update_self]
      exact hvalue u v hv
    · rw [Function.update_of_ne hxu]
      exact hτ x
  simp only [hcases, Term.shapes, List.forall_mem_map, List.forall_mem_cons] at hsub
  obtain ⟨hleaf, hstem, hfork, -⟩ := hsub
  have hval := hx _ (hσ x)
  generalize hcase : σ x = t at hval
  cases hval with
  | leaf =>
      refine holdsUnder_of_subst_single ?_ (fun _ _ _ => rfl) (hleaf σ hσ)
      exact hcase.symm
  | @stem v hv =>
      have hτ := hupdate σ y v hσ hv
      refine holdsUnder_of_subst_single ?_ (fun u hu _ => ?_) (hstem _ hτ)
      · simp [Term.stem, Term.instantiate, hcase]
      · rw [Function.update_of_ne (ne_of_mem_of_not_mem hu hy)]
  | @fork v w hv hw =>
      have hτ := hupdate _ z w (hupdate σ y v hσ hv) hw
      refine holdsUnder_of_subst_single ?_ (fun u hu _ => ?_) (hfork _ hτ)
      · simp [Term.fork, Term.instantiate, hcase, hzy.symm]
      · rw [Function.update_of_ne (ne_of_mem_of_not_mem hu hz),
          Function.update_of_ne (ne_of_mem_of_not_mem hu hy)]

end Judgment

/-! ### Calls of tactics -/

/-- When a call of a tactic at a judgment is sound for given domains of the variables: definitions
come from the table, a variable that is split ranges over canonical values, and a theorem holds of
whatever its variables stand for. -/
def Tactic.SoundAt (table : Definitions) (domain : Text → Term → Prop) (j : Judgment) :
    Tactic → Prop
  | .unfold _ used => used = table
  | .caseSplit sel =>
      ∀ x, j.goal.select sel = .ok (.var x) → ∀ t, domain x t → Term.IsValue t
  | .useTheorem thm =>
      ∀ bindings, j.matchTheorem thm = some bindings → ∀ σ, (∀ x, domain x (σ x)) →
        thm.sequent.HoldsUnder table fun x => (j.standsFor thm bindings x).instantiate σ
  | _ => True

/-- A tactic unfolds definitions of one table only, and uses theorems of one kind only. -/
def Tactic.DrawsOn (table : Definitions) (library : Theorem → Prop) : Tactic → Prop
  | .unfold _ used => used = table
  | .useTheorem thm => library thm
  | _ => True

/-- A tactic that draws on one table and on theorems that hold for closed terms is sound, if the
domains hold closed terms only and what it splits ranges over canonical values. -/
lemma Tactic.soundAt_of_drawsOn {table : Definitions} {domain : Text → Term → Prop}
    {library : Theorem → Prop} {j : Judgment} {tactic : Tactic}
    (hclosed : ∀ x t, domain x t → t.vars = [])
    (hlibrary : ∀ thm, library thm → thm.sequent.ValidForClosed table)
    (hsplit : ∀ sel, tactic = .caseSplit sel → ∀ x, j.goal.select sel = .ok (.var x) →
      ∀ t, domain x t → t.IsValue)
    (h : tactic.DrawsOn table library) : tactic.SoundAt table domain j := by
  cases tactic with
  | unfold sel used => exact h
  | caseSplit sel => exact hsplit sel rfl
  | useTheorem thm =>
      exact fun bindings _ σ hσ => hlibrary thm h _ fun x =>
        Term.vars_instantiate_eq_nil (fun y => hclosed y _ (hσ y)) _
  | reflexivity => trivial
  | symmetry => trivial
  | transitivity mid => trivial
  | congruence => trivial
  | reduction side => trivial
  | rewrite sel index => trivial
  | induction => trivial

/-- **Soundness of single calls**: if a sound call closes a node without linking back, and the
judgments that it leaves are valid, then the judgment of the node is valid. -/
theorem Tactic.validOver_of_closing {table : Definitions} {domain : Text → Term → Prop}
    (htable : table.Closed) (hvalue : ∀ x t, Term.IsValue t → domain x t)
    {p : Proof} {id : Text} {node : Node} {tactic : Tactic} {closing : Closing}
    (hsound : tactic.SoundAt table domain node.sequent.toJudgment)
    (h : tactic.closing p id node = .ok closing) (hlink : closing.backLink = none)
    (hsub : ∀ g ∈ closing.subgoals, g.ValidOver table domain) :
    node.sequent.ValidOver table domain := by
  -- all but the case split keep the assignment
  have hkeep : ∀ σ, (∀ x, domain x (σ x)) → ∀ g ∈ closing.subgoals, g.HoldsUnder table σ :=
    fun σ hσ g hg => hsub g hg σ hσ
  cases tactic with
  | reflexivity => exact fun σ hσ => Judgment.holdsUnder_of_byReflexivity h
  | symmetry => exact fun σ hσ => Judgment.holdsUnder_of_bySymmetry h (hkeep σ hσ)
  | transitivity mid => exact fun σ hσ => Judgment.holdsUnder_of_byTransitivity h (hkeep σ hσ)
  | congruence => exact fun σ hσ => Judgment.holdsUnder_of_byCongruence h (hkeep σ hσ)
  | reduction side =>
      exact fun σ hσ => Judgment.holdsUnder_of_byReduction htable h (hkeep σ hσ)
  | rewrite sel index => exact fun σ hσ => Judgment.holdsUnder_of_byRewrite h (hkeep σ hσ)
  | unfold sel used =>
      obtain rfl : used = table := hsound
      exact fun σ hσ => Judgment.holdsUnder_of_byUnfolding htable h (hkeep σ hσ)
  | caseSplit sel =>
      obtain ⟨x, hsel, rfl⟩ := Judgment.byCases_eq_ok.mp h
      exact Judgment.validOver_of_cases (hsound x hsel) hvalue hsub
  | useTheorem thm =>
      exact fun σ hσ => Judgment.holdsUnder_of_byTheorem h
        (fun bindings hmatch => hsound bindings hmatch σ hσ) (hkeep σ hσ)
  | induction =>
      obtain ⟨ancestor, -, rfl⟩ := Proof.byInduction_eq_ok.mp h
      cases hlink

end TreeCalculus
