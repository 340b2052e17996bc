import Mathlib.Data.Set.Function
import TreeCalculus.Proofs.Histories
import TreeCalculus.Proofs.Validity

/-!
A theorem applies exactly to the instances of its goal.

Before the goal of a theorem is matched, its variables are renamed one after the other, in sorted
order, each to a name that is neither in use nor given out before. So the renaming is injective
and keeps apart from the goal, whatever names the two share, and no instance is lost by it. The
variables of the theorem that do not occur in its goal are not bound by the match; they stay fresh
variables.

* `Judgment.value_renamingFrom_not_mem`, `Judgment.value_renamingFrom_injOn`: the new names are
  not in use, and pairwise distinct.
* `Judgment.instantiation`, `Judgment.subst_instantiation`: what the variables of a theorem stand
  for, as one substitution.
* `Judgment.exists_matchTheorem_iff`: the goal of a theorem matches its instances and nothing
  else.
* `Judgment.byTheorem_of_matchTheorem`: the subgoals are the hypotheses of the theorem under the
  instantiation.
* `Judgment.Loose`, `Judgment.standsFor_of_loose`: variables that the goal of a theorem does not
  fix.
* `Proof.useTheorem_of_edits`: what the use of a theorem does at an open node.
-/

namespace TreeCalculus

namespace Judgment

/-! ### Renaming apart -/

section

variable {used names : List Text} {given : Renaming}

/-- Names that are not renamed keep what they were given. -/
lemma find?_renamingFrom_of_not_mem {x : Text} (h : x ∉ names) :
    (renamingFrom used names given).find? x = given.find? x := by
  induction names generalizing used given with
  | nil => rfl
  | cons name rest ih =>
      rw [List.mem_cons, not_or] at h
      rw [renamingFrom, ih h.2, Table.find?_insert, if_neg h.1]

/-- A name that does not come again is given the fresh name. -/
lemma value_renamingFrom_cons {name : Text} (h : name ∉ names) :
    (renamingFrom used (name :: names) given).value name = freshName name used := by
  rw [Renaming.value, renamingFrom, find?_renamingFrom_of_not_mem h, Table.find?_insert, if_pos rfl,
    Option.getD_some]

/-- The new names are not in use. -/
lemma value_renamingFrom_not_mem {x : Text} (h : x ∈ names) :
    (renamingFrom used names given).value x ∉ used := by
  induction names generalizing used given with
  | nil => cases h
  | cons name rest ih =>
      by_cases hrest : x ∈ rest
      · exact fun hmem => ih hrest (List.mem_cons_of_mem _ hmem)
      · obtain rfl : x = name := (List.mem_cons.mp h).resolve_right hrest
        rw [value_renamingFrom_cons hrest]
        exact freshName_not_mem x used

/-- The new names are pairwise distinct. -/
lemma value_renamingFrom_injOn :
    Set.InjOn (renamingFrom used names given).value {x | x ∈ names} := by
  induction names generalizing used given with
  | nil => exact fun x hx => absurd hx List.not_mem_nil
  | cons name rest ih =>
      -- the first name is given a fresh one, and later names avoid it
      have hfirst {x y : Text} (hx : x ∈ name :: rest) (hxrest : x ∉ rest) (hy : y ∈ rest) :
          (renamingFrom used (name :: rest) given).value x ≠
            (renamingFrom used (name :: rest) given).value y := by
        obtain rfl : x = name := (List.mem_cons.mp hx).resolve_right hxrest
        rw [value_renamingFrom_cons hxrest, renamingFrom]
        intro heq
        exact value_renamingFrom_not_mem hy (List.mem_cons.mpr (.inl heq.symm))
      intro x hx y hy heq
      by_cases hxrest : x ∈ rest
      · by_cases hyrest : y ∈ rest
        · exact ih hxrest hyrest heq
        · exact absurd heq.symm (hfirst hy hyrest hxrest)
      · by_cases hyrest : y ∈ rest
        · exact absurd heq (hfirst hx hxrest hyrest)
        · rw [(List.mem_cons.mp hx).resolve_right hxrest,
            (List.mem_cons.mp hy).resolve_right hyrest]

end

lemma mem_sortedNames {names : List Text} {x : Text} : x ∈ sortedNames names ↔ x ∈ names :=
  List.mem_mergeSort

variable {j : Judgment} {thm : Theorem} {bindings : Substitution}

/-- The variables of a theorem are renamed apart from those of a judgment. -/
lemma value_renamingApart_not_mem {thm : Judgment} {x : Text} (h : x ∈ thm.vars) :
    (j.renamingApart thm).value x ∉ j.vars :=
  value_renamingFrom_not_mem (mem_sortedNames.mpr h)

/-- The variables of a theorem receive pairwise distinct names. -/
lemma value_renamingApart_inj {thm : Judgment} {x y : Text} (hx : x ∈ thm.vars) (hy : y ∈ thm.vars)
    (h : (j.renamingApart thm).value x = (j.renamingApart thm).value y) : x = y :=
  value_renamingFrom_injOn (mem_sortedNames.mpr hx) (mem_sortedNames.mpr hy) h

/-! ### Instances -/

/-- What the variables of a theorem stand for where it is used, as a substitution. -/
def instantiation (j : Judgment) (thm : Theorem) (bindings : Substitution) : Substitution :=
  ⟨thm.sequent.vars.map fun x => (x, j.standsFor thm bindings x)⟩

lemma find?_instantiation {x : Text} (h : x ∈ thm.sequent.vars) :
    (j.instantiation thm bindings).find? x = some (j.standsFor thm bindings x) :=
  List.lookup_graph (fun x => j.standsFor thm bindings x) h

/-- Renaming an equation of a theorem apart and then substituting the bindings is one
substitution. -/
lemma subst_instantiation {e : Equation} (he : e ∈ thm.sequent.goal :: thm.sequent.hypotheses) :
    e.subst (j.instantiation thm bindings) =
      (e.rename (j.renamingApart thm.sequent.toJudgment)).subst bindings := by
  have hside {t : Term} (ht : ∀ x ∈ t.vars, x ∈ e.lhs.vars ∨ x ∈ e.rhs.vars) :
      t.subst (j.instantiation thm bindings) =
        (t.rename (j.renamingApart thm.sequent.toJudgment)).subst bindings := by
    rw [subst_rename_eq]
    refine Term.instantiate_congr fun x hx => Substitution.value_of_find? (find?_instantiation ?_)
    exact mem_vars.mpr ⟨e, he, ht x hx⟩
  rw [Equation.subst, Equation.subst, Equation.rename, hside fun x => .inl, hside fun x => .inr]

/-- The goal of a theorem under the instantiation is the goal that it was matched against. -/
lemma subst_instantiation_goal (h : j.matchTheorem thm = some bindings) :
    thm.sequent.goal.subst (j.instantiation thm bindings) = j.goal := by
  rw [subst_instantiation List.mem_cons_self]
  exact Equation.subst_of_matchAgainst h

/-- **The goal of a theorem matches its instances**, whatever names the theorem and the instance
share, and nothing else. -/
theorem exists_matchTheorem_iff :
    (∃ bindings, j.matchTheorem thm = some bindings) ↔
      ∃ s : Substitution, thm.sequent.goal.subst s = j.goal := by
  constructor
  · rintro ⟨bindings, h⟩
    exact ⟨j.instantiation thm bindings, subst_instantiation_goal h⟩
  · rintro ⟨s, hs⟩
    -- since the renaming is injective, the instance can be read off the new names
    have hassign : ∀ y, ∃ t, ∀ x ∈ thm.sequent.vars,
        (j.renamingApart thm.sequent.toJudgment).value x = y → t = s.value x := by
      intro y
      by_cases hy : ∃ x ∈ thm.sequent.vars, (j.renamingApart thm.sequent.toJudgment).value x = y
      · obtain ⟨x, hx, rfl⟩ := hy
        exact ⟨s.value x, fun x' hx' heq => by rw [value_renamingApart_inj hx' hx heq]⟩
      · exact ⟨.leaf, fun x hx heq => absurd ⟨x, hx, heq⟩ hy⟩
    choose σ hσ using hassign
    have hside {t : Term} (ht : ∀ x ∈ t.vars, x ∈ thm.sequent.goal.lhs.vars ∨
        x ∈ thm.sequent.goal.rhs.vars) :
        (t.rename (j.renamingApart thm.sequent.toJudgment)).instantiate σ = t.subst s := by
      rw [Term.rename, Term.instantiate_instantiate]
      refine Term.instantiate_congr fun x hx => hσ _ x ?_ rfl
      exact mem_vars.mpr ⟨thm.sequent.goal, List.mem_cons_self, ht x hx⟩
    refine Equation.exists_matchAgainst ((hside fun x => .inl).trans ?_)
      ((hside fun x => .inr).trans ?_)
    · exact congrArg Equation.lhs hs
    · exact congrArg Equation.rhs hs

/-- A theorem can be used exactly where its goal matches. -/
lemma exists_byTheorem_iff : (∃ closing, j.byTheorem thm = .ok closing) ↔
    ∃ bindings, j.matchTheorem thm = some bindings := by
  constructor
  · rintro ⟨closing, hclosing⟩
    obtain ⟨bindings, hmatch, -⟩ := byTheorem_eq_ok.mp hclosing
    exact ⟨bindings, hmatch⟩
  · rintro ⟨bindings, hmatch⟩
    exact ⟨_, byTheorem_eq_ok.mpr ⟨bindings, hmatch, rfl⟩⟩

/-- The subgoals that the use of a theorem leaves are its hypotheses under the instantiation. -/
lemma byTheorem_of_matchTheorem (h : j.matchTheorem thm = some bindings) :
    j.byTheorem thm = .ok
      { rule := .hypothesis
        subgoals := thm.sequent.hypotheses.map fun e =>
          j.withGoal (e.subst (j.instantiation thm bindings))
        instantiated := some (thm.name, bindings) } := by
  refine byTheorem_eq_ok.mpr ⟨bindings, h, ?_⟩
  congr 1
  refine List.map_congr_left fun e he => ?_
  rw [subst_instantiation (List.mem_cons_of_mem _ he)]

/-! ### Variables that the goal does not fix -/

/-- A variable of a judgment is loose if it does not occur in the goal. -/
def Loose (j : Judgment) (x : Text) : Prop :=
  x ∈ j.vars ∧ x ∉ j.goal.lhs.vars ∧ x ∉ j.goal.rhs.vars

/-- A loose variable of a theorem stands for the fresh variable to which it is renamed. -/
lemma standsFor_of_loose (h : j.matchTheorem thm = some bindings) {x : Text}
    (hx : thm.sequent.Loose x) :
    j.standsFor thm bindings x = .var ((j.renamingApart thm.sequent.toJudgment).value x) := by
  set apart := j.renamingApart thm.sequent.toJudgment with hapart
  obtain ⟨hvars, hl, hr⟩ := hx
  have hside {t : Term} (ht : ∀ y ∈ t.vars, y ∈ thm.sequent.vars) (hxt : x ∉ t.vars) :
      apart.value x ∉ (t.rename apart).vars := by
    rw [Term.rename, Term.mem_vars_instantiate]
    rintro ⟨y, hy, hmem⟩
    rw [Term.vars_var, List.mem_singleton] at hmem
    exact hxt (value_renamingApart_inj hvars (ht y hy) hmem ▸ hy)
  have hunbound : bindings.find? (apart.value x) = none := by
    by_contra hbound
    obtain ⟨v, hv⟩ := Option.ne_none_iff_exists'.mp hbound
    have hgoal {y : Text} (hy : y ∈ thm.sequent.goal.lhs.vars ∨ y ∈ thm.sequent.goal.rhs.vars) :
        y ∈ thm.sequent.vars := mem_vars.mpr ⟨_, List.mem_cons_self, hy⟩
    rcases (Equation.mem_names_of_matchAgainst h).mp (Table.mem_names.mpr ⟨v, hv⟩) with hmem | hmem
    · exact hside (fun y hy => hgoal (.inl hy)) hl hmem
    · exact hside (fun y hy => hgoal (.inr hy)) hr hmem
  rw [standsFor, ← hapart, Term.rename, Term.instantiate, Term.subst, Term.instantiate,
    Substitution.value, hunbound, Option.getD_none]

lemma find?_instantiation_of_loose (h : j.matchTheorem thm = some bindings) {x : Text}
    (hx : thm.sequent.Loose x) : (j.instantiation thm bindings).find? x =
      some (.var ((j.renamingApart thm.sequent.toJudgment).value x)) := by
  rw [find?_instantiation hx.1, standsFor_of_loose h hx]

end Judgment

namespace Proof

open Relation

/-- **Use of a theorem**: take a proof with which work begins, let any history lead from it to
`p`, and call for a theorem at an open node. The call succeeds exactly if the goal of the node is
an instance of the goal of the theorem. Then one substitution turns the goal of the theorem into
the goal of the node and its hypotheses, in their order, into the goals of the subgoals, which
have the hypotheses of the node; and it sends the variables that do not occur in the goal of the
theorem to pairwise distinct variables that do not occur in the sequent of the node. -/
theorem useTheorem_of_edits (p₀ p : Proof) (hbegin : Begins p₀) (h : ReflTransGen Edits p₀ p)
    (supply : Supply) (id : Text) (node : Node) (hnode : p.openNode? id = some node)
    (thm : Theorem) :
    let attempt := Session.run ⟨p, supply⟩ id (.useTheorem thm)
    (attempt.outcome = .ok () ↔
      ∃ s : Substitution, thm.sequent.goal.subst s = node.sequent.goal) ∧
    (attempt.outcome = .ok () →
      ∃ s : Substitution, thm.sequent.goal.subst s = node.sequent.goal ∧
        p.Leaves attempt.session.proof id .hypothesis
          (thm.sequent.hypotheses.map fun e => node.sequent.withGoal (e.subst s)) ∧
        (∀ x, thm.sequent.Loose x → ∃ y, s.find? x = some (.var y) ∧ y ∉ node.sequent.vars) ∧
        ∀ x x', thm.sequent.Loose x → thm.sequent.Loose x' → s.find? x = s.find? x' → x = x') := by
  intro attempt
  have hp : (Session.mk p supply).proof.Indexed := (hbegin.coherent.edits h).indexed
  have hmatches : attempt.outcome = .ok () ↔
      ∃ bindings, node.sequent.matchTheorem thm = some bindings :=
    (Session.outcome_run_eq_ok hp hnode).trans Judgment.exists_byTheorem_iff
  refine ⟨hmatches.trans Judgment.exists_matchTheorem_iff, fun hok => ?_⟩
  obtain ⟨bindings, hmatch⟩ := hmatches.mp hok
  have hclosing : (Tactic.useTheorem thm).closing p id node = _ :=
    Judgment.byTheorem_of_matchTheorem hmatch
  obtain ⟨-, hleaves⟩ := Session.run_leaves hp hnode hclosing rfl
  refine ⟨node.sequent.instantiation thm bindings, Judgment.subst_instantiation_goal hmatch,
    hleaves, fun x hx => ?_, fun x x' hx hx' heq => ?_⟩
  · exact ⟨_, Judgment.find?_instantiation_of_loose hmatch hx,
      Judgment.value_renamingApart_not_mem hx.1⟩
  · rw [Judgment.find?_instantiation_of_loose hmatch hx,
      Judgment.find?_instantiation_of_loose hmatch hx', Option.some.injEq, Term.var.injEq] at heq
    exact Judgment.value_renamingApart_inj hx.1 hx'.1 heq

/-- A theorem whose variables are those of the goal the other way round, used after the goal was
turned around: `x` stands for `x1` and `x1` for `x`, and the loose variable `w` for another than
the `w` of the hypothesis. -/
theorem useTheorem_of_edits_names_exchanged :
    let j : Judgment :=
      { hypotheses := [⟨.var "w", .leaf⟩], goal := ⟨.var "x1", .app (.var "x1") (.var "x")⟩ }
    let thm : Theorem :=
      { name := "exchange"
        sequent :=
          { hypotheses := [⟨.app (.var "x1") (.var "w"), .var "x"⟩]
            goal := ⟨.app (.var "x") (.var "x1"), .var "x"⟩
            id := "s1" } }
    let p := ((Session.start {} j).run rootId .symmetry).session.proof
    let attempt := Session.run ⟨p, {}⟩ "root.0" (.useTheorem thm)
    attempt.outcome = .ok () ∧
      ∃ y, y ∉ [Text.ofString "w", Text.ofString "x", Text.ofString "x1"] ∧
        p.Leaves attempt.session.proof "root.0" .hypothesis
          [j.withGoal ⟨.app (.var "x") (.var y), .var "x1"⟩] := by
  intro j thm p attempt
  have hhistory : ReflTransGen Edits (Session.start {} j).proof p :=
    edits_of_resumes (resumes_runAll (Session.start {} j) [(rootId, .symmetry)])
  let node : Node :=
    { id := "root.0"
      sequent := { toJudgment := j.withGoal j.goal.flip, id := "s2" }
      parent := some rootId }
  have hvars : node.sequent.vars = [Text.ofString "w", Text.ofString "x", Text.ofString "x1"] := by
    decide
  obtain ⟨hiff, huse⟩ :=
    useTheorem_of_edits _ p (.start _) hhistory {} "root.0" node (by decide) thm
  have hok : attempt.outcome = .ok () :=
    hiff.mpr ⟨⟨[("x", .var "x1"), ("x1", .var "x")]⟩, by decide⟩
  obtain ⟨s, hgoal, hleaves, hloose, -⟩ := huse hok
  obtain ⟨y, hy, hfresh⟩ := hloose "w" ⟨by decide, by decide, by decide⟩
  have hx : s.value "x" = .var "x1" := congrArg Equation.rhs hgoal
  have hx1 : s.value "x1" = .var "x" := (Term.app.inj (congrArg Equation.lhs hgoal)).2
  have hw : s.value "w" = .var y := Substitution.value_of_find? hy
  have hsubgoals : (thm.sequent.hypotheses.map fun e => node.sequent.withGoal (e.subst s)) =
      [j.withGoal ⟨.app (s.value "x1") (s.value "w"), s.value "x"⟩] := rfl
  rw [hsubgoals, hx, hx1, hw] at hleaves
  exact ⟨hok, y, hvars ▸ hfresh, hleaves⟩

end Proof

end TreeCalculus
