import Mathlib.Tactic.SplitIfs
import TreeCalculus.Proofs.Fresh
import TreeCalculus.Tactic.Closing

/-!
What the tactics ask for, read backwards.

For each tactic: when it succeeds on a judgment, and with which closing. So a proof about a
successful call never opens the tactic itself.

* `Judgment.byReflexivity_eq_ok` and so on, `Proof.byInduction_eq_ok`: one equivalence a tactic.
* `Term.shapes`, `Judgment.exists_fresh_cases`: the cases of a variable, with names that are not
  in use.
* `Judgment.matchTheorem`: the bindings under which the goal of a theorem is the goal of a
  judgment.
* `Tactic.backLink_eq_none`, `Tactic.links_of_closing`: only induction links back, and to which
  node.
-/

namespace TreeCalculus

/-- The shapes of canonical values: a leaf, a stem and a fork, with variables for the arguments. -/
def Term.shapes (y z : Text) : List Term := [leaf, stem (var y), fork (var y) (var z)]

namespace Judgment

variable {j : Judgment} {closing : Closing}

/-- Variables that have texts for names can be looked up. -/
@[simp] lemma unhashable?_eq_none (j : Judgment) : j.unhashable? = none :=
  Naming.firstUnhashable?_text _

lemma byReflexivity_eq_ok : j.byReflexivity = .ok closing ↔
    j.goal.lhs = j.goal.rhs ∧ closing = { rule := .reflexivity } := by
  rw [byReflexivity]
  simp only [Term.equals_eq_true]
  split_ifs with h
  · exact ⟨fun heq => ⟨h, (Except.ok.inj heq).symm⟩, fun heq => congrArg _ heq.2.symm⟩
  · exact ⟨fun heq => (by cases heq), fun heq => absurd heq.1 h⟩

lemma byCongruence_eq_ok : j.byCongruence = .ok closing ↔
    ∃ a b c d, j.goal = ⟨.app a b, .app c d⟩ ∧
      closing = { rule := .congruence, subgoals := [j.withGoal ⟨a, c⟩, j.withGoal ⟨b, d⟩] } := by
  rw [byCongruence]
  split
  · next a b c d hgoal =>
      constructor
      · intro heq
        exact ⟨a, b, c, d, hgoal, (Except.ok.inj heq).symm⟩
      · rintro ⟨a', b', c', d', hgoal', rfl⟩
        rw [hgoal] at hgoal'
        cases hgoal'
        rfl
  · next hgoal =>
      constructor
      · intro heq
        cases heq
      · rintro ⟨a, b, c, d, heq, -⟩
        exact absurd heq (hgoal a b c d)

lemma byReduction_eq_ok {side : Side} : j.byReduction side = .ok closing ↔
    ∃ t, (j.goal.side side).step? = some t ∧
      closing = { rule := .reduction, subgoals := [j.withGoal (j.goal.withSide side t)] } := by
  rw [byReduction]
  cases (j.goal.side side).step? with
  | none => simp
  | some t => simp [eq_comm]

lemma replacing_eq_ok {sel : Selection} {new : Term} : j.replacing sel new = .ok closing ↔
    ∃ goal, j.goal.replace sel new = .ok goal ∧
      closing = { rule := .rewrite, subgoals := [j.withGoal goal] } := by
  rw [replacing]
  cases j.goal.replace sel new with
  | error reason => simp
  | ok goal => simp [eq_comm]

lemma byRewrite_eq_ok {sel : Selection} {index : Int} : j.byRewrite sel index = .ok closing ↔
    ∃ h, j.hypothesis? index = some h ∧ j.goal.select sel = .ok h.lhs ∧
      j.replacing sel h.rhs = .ok closing := by
  rw [byRewrite]
  cases j.hypothesis? index with
  | none => simp
  | some h =>
      cases j.goal.select sel with
      | error reason => simp
      | ok selected =>
          by_cases hs : h.lhs = selected
          · simp [hs]
          · simp [hs, Ne.symm hs]

lemma byUnfolding_eq_ok {sel : Selection} {table : Definitions} :
    j.byUnfolding sel table = .ok closing ↔
      ∃ name body, j.goal.select sel = .ok (.ref name) ∧ table.find? name = some body ∧
        j.replacing sel body = .ok closing := by
  rw [byUnfolding]
  cases j.goal.select sel with
  | error reason => simp
  | ok selected =>
      cases selected with
      | ref name => cases hbody : table.find? name <;> simp [hbody]
      | leaf => simp
      | var x => simp
      | app l r => simp

lemma byCases_eq_ok {sel : Selection} : j.byCases sel = .ok closing ↔
    ∃ x, j.goal.select sel = .ok (.var x) ∧
      closing = { rule := .caseSplit, subgoals := j.cases x } := by
  rw [byCases, unhashable?_eq_none]
  cases j.goal.select sel with
  | error reason => simp
  | ok selected => cases selected <;> simp [eq_comm]

/-- The cases of a variable put the shapes of canonical values in its place, with variables for the
arguments that do not occur in the judgment. -/
lemma exists_fresh_cases (j : Judgment) (x : Text) :
    ∃ y z, y ∉ j.vars ∧ z ∉ j.vars ∧ z ≠ y ∧
      j.cases x = (Term.shapes y z).map fun t => j.subst ⟨[(x, t)]⟩ := by
  have hz := freshName_not_mem "z" (freshName "y" j.vars :: j.vars)
  rw [List.mem_cons, not_or] at hz
  exact ⟨_, _, freshName_not_mem "y" j.vars, hz.2, hz.1, rfl⟩

/-- The bindings under which the goal of a theorem, renamed apart, is the goal of a judgment. -/
def matchTheorem (j : Judgment) (thm : Theorem) : Option Substitution :=
  (thm.sequent.goal.rename (j.renamingApart thm.sequent.toJudgment)).matchAgainst j.goal

lemma byTheorem_eq_ok {thm : Theorem} : j.byTheorem thm = .ok closing ↔
    ∃ bindings, j.matchTheorem thm = some bindings ∧
      closing =
        { rule := .hypothesis
          subgoals := thm.sequent.hypotheses.map fun h =>
            j.withGoal ((h.rename (j.renamingApart thm.sequent.toJudgment)).subst bindings)
          instantiated := some (thm.name, bindings) } := by
  simp only [byTheorem, matchTheorem, unhashable?_eq_none, Equation.embed_text]
  cases (thm.sequent.goal.rename
      (j.renamingApart thm.sequent.toJudgment)).matchAgainst j.goal with
  | none => simp
  | some bindings => simp [eq_comm]

end Judgment

lemma Proof.byInduction_eq_ok {p : Proof} {id : Text} {closing : Closing} :
    p.byInduction id = .ok closing ↔
      ∃ ancestor, p.matchingAncestor? id = some ancestor ∧
        closing = { rule := .induction, backLink := some ancestor.id } := by
  rw [Proof.byInduction]
  cases p.matchingAncestor? id with
  | none => simp
  | some ancestor => simp [eq_comm]

/-- Tactics other than induction make no link, and their rules are other ones. -/
lemma Tactic.unlinked_of_ne_induction {p : Proof} {id : Text} {node : Node} {tactic : Tactic}
    {closing : Closing} (h : tactic.closing p id node = .ok closing) (hi : tactic ≠ .induction) :
    closing.backLink = none ∧ closing.rule ≠ .induction := by
  cases tactic with
  | reflexivity =>
      obtain ⟨-, rfl⟩ := Judgment.byReflexivity_eq_ok.mp h
      exact ⟨rfl, nofun⟩
  | symmetry => cases h; exact ⟨rfl, nofun⟩
  | transitivity mid => cases h; exact ⟨rfl, nofun⟩
  | congruence =>
      obtain ⟨a, b, c, d, -, rfl⟩ := Judgment.byCongruence_eq_ok.mp h
      exact ⟨rfl, nofun⟩
  | reduction side =>
      obtain ⟨t, -, rfl⟩ := Judgment.byReduction_eq_ok.mp h
      exact ⟨rfl, nofun⟩
  | rewrite sel index =>
      obtain ⟨hyp, -, -, hr⟩ := Judgment.byRewrite_eq_ok.mp h
      obtain ⟨goal, -, rfl⟩ := Judgment.replacing_eq_ok.mp hr
      exact ⟨rfl, nofun⟩
  | unfold sel table =>
      obtain ⟨name, body, -, -, hr⟩ := Judgment.byUnfolding_eq_ok.mp h
      obtain ⟨goal, -, rfl⟩ := Judgment.replacing_eq_ok.mp hr
      exact ⟨rfl, nofun⟩
  | caseSplit sel =>
      obtain ⟨x, -, rfl⟩ := Judgment.byCases_eq_ok.mp h
      exact ⟨rfl, nofun⟩
  | useTheorem thm =>
      obtain ⟨bindings, -, rfl⟩ := Judgment.byTheorem_eq_ok.mp h
      exact ⟨rfl, nofun⟩
  | induction => exact absurd rfl hi

/-- Only induction links back. -/
lemma Tactic.backLink_eq_none {p : Proof} {id : Text} {node : Node} {tactic : Tactic}
    {closing : Closing} (h : tactic.closing p id node = .ok closing) (hi : tactic ≠ .induction) :
    closing.backLink = none :=
  (unlinked_of_ne_induction h hi).1

/-- A tactic links back iff it closes by induction; then it leaves nothing to prove and links to the
nearest ancestor with the same goal. -/
lemma Tactic.links_of_closing {p : Proof} {id : Text} {node : Node} {tactic : Tactic}
    {closing : Closing} (h : tactic.closing p id node = .ok closing) :
    (closing.backLink.isSome ↔ closing.rule = .induction) ∧
      ∀ link, closing.backLink = some link →
        closing.subgoals = [] ∧ (p.matchingAncestor? id).map Node.id = some link := by
  by_cases hi : tactic = .induction
  · subst hi
    obtain ⟨ancestor, hancestor, rfl⟩ := Proof.byInduction_eq_ok.mp h
    refine ⟨by simp, fun link hlink => ⟨rfl, ?_⟩⟩
    rw [hancestor, Option.map_some, ← hlink]
  · obtain ⟨hlink, hrule⟩ := unlinked_of_ne_induction h hi
    simp [hlink, hrule]

end TreeCalculus
