import TreeCalculus.Proofs.Histories
import TreeCalculus.Proofs.NamedRuns
import TreeCalculus.Proofs.Paths

/-!
Failures of tactics.

A tactic is rejected, or it meets a path that takes a turn at a term that is no application. Only
the three tactics with a selection can meet such a path, and they meet it when they look the
selected subterm up: what was selected can be replaced. A node is closed under its own id, and the
index leads to nodes with the id that was looked up, so the node that a tactic has examined is the
node that it closes. Whatever ids a proof repeats, a call that fails leaves the session as it was.

* `Tactic.Selects`: the tactics that resolve a selection.
* `Tactic.closing_error_cases`, `Tactic.closing_of_select_error`: how tactics fail.
* `Proof.failures_of_edits`: what a failure means after every history.
-/

namespace TreeCalculus

open Json (Value)

/-! ### How tactics fail -/

/-- The tactics that resolve a selection at a judgment; a rewrite does so if its hypothesis is
there. -/
inductive Tactic.Selects (j : Judgment) (sel : Selection) : Tactic → Prop where
  | rewrite {index : Int} (hindex : 0 ≤ index ∧ index < j.hypotheses.length) :
      Selects j sel (.rewrite sel index)
  | unfold (table : Definitions) : Selects j sel (.unfold sel table)
  | caseSplit : Selects j sel (.caseSplit sel)

namespace Judgment

variable {j : Judgment}

lemma isSome_hypothesis? {index : Int} :
    (j.hypothesis? index).isSome ↔ 0 ≤ index ∧ index < j.hypotheses.length := by
  rw [hypothesis?]
  split_ifs with h
  · simp only [Option.isSome_none, Bool.false_eq_true, false_iff]
    omega
  · rw [isSome_getElem?]
    omega

/-- A rewrite goes through once its subterm is selected. -/
lemma exists_replacing_of_select {sel : Selection} {selected : Term}
    (h : j.goal.select sel = .ok selected) (new : Term) :
    ∃ closing, j.replacing sel new = .ok closing := by
  obtain ⟨goal, hgoal⟩ := Equation.exists_replace_of_select h new
  exact ⟨_, replacing_eq_ok.mpr ⟨goal, hgoal, rfl⟩⟩

/-- A rewrite that fails is rejected, or its hypothesis is there and nothing is selected. -/
lemma byRewrite_error_cases {sel : Selection} {index : Int} {failure : Failure}
    (h : j.byRewrite sel index = .error failure) :
    (∃ reason, failure = .rejected reason) ∨
      ∃ reason, (j.hypothesis? index).isSome ∧ j.goal.select sel = .error reason ∧
        failure = .mismatch reason := by
  rw [byRewrite] at h
  cases hhyp : j.hypothesis? index with
  | none =>
      simp only [hhyp] at h
      exact .inl ⟨_, (Except.error.inj h).symm⟩
  | some hyp =>
      simp only [hhyp] at h
      cases hselect : j.goal.select sel with
      | error reason =>
          simp only [hselect] at h
          exact .inr ⟨reason, rfl, rfl, (Except.error.inj h).symm⟩
      | ok selected =>
          simp only [hselect] at h
          split_ifs at h
          · obtain ⟨closing, hclosing⟩ := exists_replacing_of_select hselect hyp.rhs
            rw [hclosing] at h
            cases h
          · exact .inl ⟨_, (Except.error.inj h).symm⟩

/-- An unfolding that fails is rejected, or nothing is selected. -/
lemma byUnfolding_error_cases {sel : Selection} {table : Definitions} {failure : Failure}
    (h : j.byUnfolding sel table = .error failure) :
    (∃ reason, failure = .rejected reason) ∨
      ∃ reason, j.goal.select sel = .error reason ∧ failure = .mismatch reason := by
  rw [byUnfolding] at h
  cases hselect : j.goal.select sel with
  | error reason =>
      simp only [hselect] at h
      exact .inr ⟨reason, rfl, (Except.error.inj h).symm⟩
  | ok selected =>
      refine .inl ?_
      cases selected with
      | ref name =>
          simp only [hselect] at h
          cases hbody : table.find? name with
          | none =>
              simp only [hbody] at h
              exact ⟨_, (Except.error.inj h).symm⟩
          | some body =>
              obtain ⟨closing, hclosing⟩ := exists_replacing_of_select hselect body
              simp only [hbody, hclosing] at h
              cases h
      | leaf | var x | app l r =>
          simp only [hselect] at h
          exact ⟨_, (Except.error.inj h).symm⟩

/-- A case split that fails is rejected, or nothing is selected. -/
lemma byCases_error_cases {sel : Selection} {failure : Failure}
    (h : j.byCases sel = .error failure) :
    (∃ reason, failure = .rejected reason) ∨
      ∃ reason, j.goal.select sel = .error reason ∧ failure = .mismatch reason := by
  rw [byCases] at h
  cases hselect : j.goal.select sel with
  | error reason =>
      simp only [hselect] at h
      exact .inr ⟨reason, rfl, (Except.error.inj h).symm⟩
  | ok selected =>
      refine .inl ?_
      cases selected with
      | var x =>
          simp only [hselect, unhashable?_eq_none] at h
          cases h
      | leaf | ref n | app l r =>
          simp only [hselect] at h
          exact ⟨_, (Except.error.inj h).symm⟩

end Judgment

namespace Tactic

variable {p : Proof} {id : Text} {node : Node} {tactic : Tactic}

/-- A tactic that fails is rejected, or it resolves a selection and nothing is selected. -/
lemma closing_error_cases {failure : Failure} (h : tactic.closing p id node = .error failure) :
    (∃ reason, failure = .rejected reason) ∨
      ∃ sel reason, tactic.Selects node.sequent.toJudgment sel ∧
        node.sequent.goal.select sel = .error reason ∧ failure = .mismatch reason := by
  cases tactic with
  | reflexivity =>
      simp only [closing, Judgment.byReflexivity] at h
      split_ifs at h
      exact .inl ⟨_, (Except.error.inj h).symm⟩
  | symmetry => cases h
  | transitivity mid => cases h
  | congruence =>
      simp only [closing, Judgment.byCongruence] at h
      split at h
      · cases h
      · exact .inl ⟨_, (Except.error.inj h).symm⟩
  | reduction side =>
      simp only [closing, Judgment.byReduction] at h
      split at h
      · cases h
      · exact .inl ⟨_, (Except.error.inj h).symm⟩
  | rewrite sel index =>
      obtain hrejected | ⟨reason, hsome, hselect, rfl⟩ := Judgment.byRewrite_error_cases h
      · exact .inl hrejected
      · exact .inr ⟨sel, reason, .rewrite (Judgment.isSome_hypothesis?.mp hsome), hselect, rfl⟩
  | unfold sel table =>
      obtain hrejected | ⟨reason, hselect, rfl⟩ := Judgment.byUnfolding_error_cases h
      · exact .inl hrejected
      · exact .inr ⟨sel, reason, .unfold table, hselect, rfl⟩
  | caseSplit sel =>
      obtain hrejected | ⟨reason, hselect, rfl⟩ := Judgment.byCases_error_cases h
      · exact .inl hrejected
      · exact .inr ⟨sel, reason, .caseSplit, hselect, rfl⟩
  | useTheorem thm =>
      simp only [closing, Judgment.byTheorem, Judgment.unhashable?_eq_none] at h
      split at h
      · exact .inl ⟨_, (Except.error.inj h).symm⟩
      · cases h
  | induction =>
      simp only [closing, Proof.byInduction] at h
      split at h
      · cases h
      · exact .inl ⟨_, (Except.error.inj h).symm⟩

/-- A tactic that resolves a selection fails if nothing is selected. -/
lemma closing_of_select_error {sel : Selection} {reason : PathMismatch}
    (hsel : tactic.Selects node.sequent.toJudgment sel)
    (hselect : node.sequent.goal.select sel = .error reason) :
    tactic.closing p id node = .error (.mismatch reason) := by
  cases hsel with
  | rewrite hindex =>
      obtain ⟨hyp, hhyp⟩ := Option.isSome_iff_exists.mp (Judgment.isSome_hypothesis?.mpr hindex)
      simp only [closing, Judgment.byRewrite, hhyp, hselect]
  | unfold table => simp only [closing, Judgment.byUnfolding, hselect]
  | caseSplit => simp only [closing, Judgment.byCases, hselect]

end Tactic

/-! ### Calls that fail -/

namespace Session

variable {s : Session} (hs : s.proof.Indexed) {id : Text} {tactic : Tactic}

include hs

/-- A call that fails leaves the session as it was. -/
lemma session_run_of_error {failure : Failure} (h : (s.run id tactic).outcome = .error failure) :
    (s.run id tactic).session = s := by
  obtain ⟨position, part, closing, -, -, -, -, -, hok⟩ | ⟨node, failure', -, -, hsession, -⟩ |
    ⟨-, hsession, -⟩ := run_cases hs id tactic
  · rw [hok] at h
    cases h
  · exact hsession
  · exact hsession

/-- A call meets a bad path iff its tactic resolves a selection at an open node and nothing is
selected. -/
lemma outcome_run_eq_mismatch {reason : PathMismatch} :
    (s.run id tactic).outcome = .error (.mismatch reason) ↔
      ∃ node sel, s.proof.openNode? id = some node ∧
        tactic.Selects node.sequent.toJudgment sel ∧
        node.sequent.goal.select sel = .error reason := by
  constructor
  · intro h
    obtain ⟨position, part, closing, -, -, -, -, -, hok⟩ |
      ⟨node, failure, hnode, hclosing, -, hout⟩ | ⟨-, -, hout⟩ := run_cases hs id tactic
    · rw [hok] at h
      cases h
    · rw [hout] at h
      cases h
      obtain ⟨reason', heq⟩ | ⟨sel, reason', hsel, hselect, heq⟩ :=
        Tactic.closing_error_cases hclosing
      · cases heq
      · cases heq
        exact ⟨node, sel, hnode, hsel, hselect⟩
    · rw [hout] at h
      cases h
  · rintro ⟨node, sel, hnode, hsel, hselect⟩
    exact (run_of_error hnode (Tactic.closing_of_select_error hsel hselect)).2

/-- A call that fails is rejected, or it meets a bad path. -/
lemma failure_cases {failure : Failure} (h : (s.run id tactic).outcome = .error failure) :
    (∃ reason, failure = .rejected reason) ∨ ∃ reason, failure = .mismatch reason := by
  obtain ⟨position, part, closing, -, -, -, -, -, hok⟩ | ⟨node, failure', -, hclosing, -, hout⟩ |
    ⟨-, -, hout⟩ := run_cases hs id tactic
  · rw [hok] at h
    cases h
  · rw [hout] at h
    cases h
    obtain hrejected | ⟨sel, reason, -, -, heq⟩ := Tactic.closing_error_cases hclosing
    · exact .inl hrejected
    · exact .inr ⟨reason, heq⟩
  · rw [hout] at h
    cases h
    exact .inl ⟨_, rfl⟩

end Session

/-- Only a bad path has the image of a bad path. -/
lemma Failure.mapError_embed_eq_mismatch {α : Type} {outcome : Except Failure α}
    {reason : PathMismatch} : outcome.mapError embed = .error (.mismatch reason) ↔
      outcome = .error (.mismatch reason) := by
  cases outcome with
  | ok a => exact ⟨nofun, nofun⟩
  | error failure => cases failure <;> simp [Except.mapError, embed]

namespace Proof

open Relation

/-- An open node is found again, in the same place, by its own id. -/
lemma Indexed.find?_own_id {p : Proof} {id : Text} {node : Node} (hp : p.Indexed)
    (h : p.openNode? id = some node) : p.index.find? node.id = p.index.find? id := by
  obtain ⟨-, -, -, -, -, -, rfl⟩ := openNode?_eq_some hp h
  rfl

/-- **Failures change nothing, and only bad paths are not rejections**: take a proof with which
work begins, of one goal or read from any value that has strings for names, let any history lead
from it to `p`, and call any tactic at any node, with any supply of names. If the call fails, the
tree, the index and the supply are as before, and the call is rejected or fails with a mismatch.
It fails with a mismatch exactly if the tactic resolves a selection at an open node, and the path
takes a turn at a term that is no application, which is reported with the place where it stands.
The node that was examined is the node that is closed, and a subterm that was selected can be
replaced. -/
theorem failures_of_edits (p₀ p : Proof) (hbegin : Begins p₀) (h : ReflTransGen Edits p₀ p)
    (supply : Supply) (id : Text) (tactic : Tactic) :
    let s : Session Value := ⟨p.embed, supply⟩
    let attempt := s.run (.str id) tactic.embed
    (∀ failure, attempt.outcome = .error failure → attempt.session = s ∧
      ((∃ reason, failure = .rejected reason) ∨ ∃ reason, failure = .mismatch reason)) ∧
    (∀ reason, attempt.outcome = .error (.mismatch reason) ↔
      ∃ node sel, p.openNode? id = some node ∧ tactic.Selects node.sequent.toJudgment sel ∧
        ∃ walked turn rest found, sel.path = walked ++ turn :: rest ∧
          (node.sequent.goal.side sel.side).subterm walked = .ok found ∧ found.kind ≠ .app ∧
          reason = .stuckAt walked found.kind) ∧
    attempt.outcome ≠ .error .lostNode ∧
    (∀ node, p.openNode? id = some node → p.index.find? node.id = p.index.find? id ∧
      ∀ sel selected new, node.sequent.goal.select sel = .ok selected →
        ∃ goal, node.sequent.goal.replace sel new = .ok goal) := by
  intro s attempt
  have hp : (Session.mk p supply).proof.Indexed := (hbegin.coherent.edits h).indexed
  have hattempt := Session.run_embed ⟨p, supply⟩ id tactic
  have houtcome : attempt.outcome =
      (Session.run ⟨p, supply⟩ id tactic).outcome.mapError Failure.embed :=
    congrArg Attempt.outcome hattempt
  have hfails : ∀ failure, attempt.outcome = .error failure → attempt.session = s ∧
      ((∃ reason, failure = .rejected reason) ∨ ∃ reason, failure = .mismatch reason) := by
    intro failure hfailure
    rw [houtcome] at hfailure
    cases hcall : (Session.run ⟨p, supply⟩ id tactic).outcome with
    | ok _ =>
        rw [hcall] at hfailure
        cases hfailure
    | error failure' =>
        rw [hcall] at hfailure
        cases hfailure
        have hsession := Session.session_run_of_error hp hcall
        refine ⟨(congrArg Attempt.session hattempt).trans (congrArg Session.embed hsession), ?_⟩
        obtain ⟨reason, rfl⟩ | ⟨reason, rfl⟩ := Session.failure_cases hp hcall
        · exact .inl ⟨_, rfl⟩
        · exact .inr ⟨_, rfl⟩
  refine ⟨hfails, fun reason => ?_, fun hlost => ?_, fun node hnode => ⟨hp.find?_own_id hnode, ?_⟩⟩
  · rw [houtcome, Failure.mapError_embed_eq_mismatch, Session.outcome_run_eq_mismatch hp]
    simp only [Equation.select_eq_error]
  · obtain ⟨-, ⟨reason, heq⟩ | ⟨reason, heq⟩⟩ := hfails _ hlost
    · cases heq
    · cases heq
  · exact fun sel selected new hselect => Equation.exists_replace_of_select hselect new

/-- A proof is read in which two nodes have the id `a`, the upper one open with a node below it. A
rewrite with its hypothesis is called at `a` with a path that goes into a variable: it stops at the
variable, and nothing changes. -/
theorem failures_of_edits_stale_path :
    let label : Node :=
      { id := "a"
        sequent := { hypotheses := [⟨.var "x", .leaf⟩], goal := ⟨.var "x", .leaf⟩, id := "s1" } }
    let p := (ofTree (.node label [.node label []])).reindex
    let s : Session Value := ⟨p.embed, {}⟩
    let attempt := s.run (.str "a") (.rewrite ⟨.lhs, [.left]⟩ 0)
    attempt.outcome = .error (.mismatch (.stuckAt [] .var)) ∧ attempt.session = s := by
  intro label p s attempt
  have hbegin : Begins p := .read (ofValue_toValue (ofTree (.node label [.node label []])))
  obtain ⟨hfails, hmismatch, -⟩ :=
    failures_of_edits p p hbegin .refl {} "a" (.rewrite ⟨.lhs, [.left]⟩ 0)
  have houtcome : attempt.outcome = .error (.mismatch (.stuckAt [] .var)) :=
    (hmismatch _).mpr ⟨{ label with parent := some "a" }, ⟨.lhs, [.left]⟩, by decide,
      .rewrite (by decide), [], .left, [], .var "x", rfl, rfl, by decide, rfl⟩
  exact ⟨houtcome, (hfails _ houtcome).1⟩

/-- A proof of `x = []` is read, where the name of the right variable is the empty list. To split on
`x` the names in use are collected, and a list cannot be looked up among them: the call is not
rejected, and no path is bad. -/
theorem caseSplit_fails_at_list_name :
    let sequent : Sequent Value := { goal := ⟨.var (.str "x"), .var (.arr [])⟩, id := .str "s1" }
    let p : Proof Value := ofTree (.node { id := .str "root", sequent } [])
    (∃ v, ofValue v = .ok p) ∧
      (Session.run ⟨p, {}⟩ (.str "root") (.caseSplit ⟨.lhs, []⟩)).outcome =
        .error (.unhashable .arr) := by
  intro sequent p
  exact ⟨⟨p.toValue, rfl⟩, rfl⟩

end Proof

end TreeCalculus
