import TreeCalculus.Proofs.Budgets
import TreeCalculus.Proofs.Effects

/-!
Evaluation replayed as a proof.

A bounded reduction is a number of steps, and each step is what one call of the reduction tactic
does to a side of a goal. So the two reductions of the sides of a goal, one after the other, are a
script of calls that grows a single branch. If the reductions lead to the same term, then
reflexivity closes the end of the branch. The induction is over the steps; it carries along that
the closed nodes stand one below the other over one open node, which holds the goal reduced so
far.

* `Derivation.spine`: trees of a single branch.
* `Session.outcomes`: the outcomes of a script.
* `Session.Branches`, `Session.Branches.run`, `Session.Branches.run_reductions`: sessions whose
  tree is a single branch, after one call and after a row of reductions.
* `Session.outcomes_replay`: the script that replays two reductions.
-/

namespace TreeCalculus

/-! ### Single branches -/

namespace Derivation

/-- Nodes one below the other, with a tree at the lower end. -/
def spine (labels : List Node) (d : Derivation) : Derivation :=
  labels.foldr (fun label below => node label [below]) d

lemma spine_cons (label : Node) (labels : List Node) (d : Derivation) :
    spine (label :: labels) d = node label [spine labels d] := rfl

lemma spine_concat (labels : List Node) (label : Node) (d : Derivation) :
    spine (labels ++ [label]) d = spine labels (node label [d]) := by
  rw [spine, List.foldr_append]
  rfl

lemma at?_spine (labels : List Node) (d : Derivation) :
    (spine labels d).at? (List.replicate labels.length 0) = some d := by
  induction labels with
  | nil => exact at?_nil d
  | cons label labels ih =>
      rw [spine_cons, List.length_cons, List.replicate_succ, at?_node_cons]
      exact ih

/-- A change at the lower end leaves the branch above it alone. -/
lemma modify_spine (f : Derivation → Derivation) (labels : List Node) (d : Derivation) :
    (spine labels d).modify f (List.replicate labels.length 0) = spine labels (f d) := by
  induction labels with
  | nil => exact modify_nil f d
  | cons label labels ih =>
      rw [spine_cons, List.length_cons, List.replicate_succ, modify_node_cons, spine_cons, ← ih]
      rfl

lemma nodes_spine (labels : List Node) (d : Derivation) :
    (spine labels d).nodes = labels ++ d.nodes := by
  induction labels with
  | nil => rfl
  | cons label labels ih =>
      rw [spine_cons, nodes_node, List.flatMap_singleton, ih, List.cons_append]

lemma depth_spine (labels : List Node) (d : Derivation) :
    (spine labels d).depth = labels.length + d.depth := by
  induction labels with
  | nil => exact (Nat.zero_add _).symm
  | cons label labels ih =>
      rw [spine_cons, depth, greatestDepth, greatestDepth, ih, List.length_cons]
      omega

lemma isComplete_spine {labels : List Node} {d : Derivation}
    (hlabels : ∀ label ∈ labels, label.rule.isSome) (hd : d.isComplete) :
    (spine labels d).isComplete := by
  induction labels with
  | nil => exact hd
  | cons label labels ih =>
      rw [List.forall_mem_cons] at hlabels
      rw [spine_cons, isComplete_node]
      refine .inr ⟨hlabels.1, fun c hc => ?_⟩
      rw [List.mem_singleton.mp hc]
      exact ih hlabels.2

end Derivation

/-! ### Scripts on a single branch -/

namespace Session

open Proof

/-- The outcomes of the calls of a script, one after the other. -/
def outcomes (s : Session) : List (Text × Tactic) → List (Except Failure Unit)
  | [] => []
  | call :: rest => (s.run call.1 call.2).outcome :: (s.run call.1 call.2).session.outcomes rest

lemma runAll_append (s : Session) (script script' : List (Text × Tactic)) :
    s.runAll (script ++ script') = (s.runAll script).runAll script' :=
  List.foldl_append

lemma outcomes_append (s : Session) (script script' : List (Text × Tactic)) :
    s.outcomes (script ++ script') = s.outcomes script ++ (s.runAll script).outcomes script' := by
  induction script generalizing s with
  | nil => rfl
  | cons call rest ih =>
      rw [List.cons_append, outcomes, ih, outcomes, List.cons_append]
      rfl

/-- The id of the node `k` levels below the root, along first children: `root`, `root.0`, and so
on. -/
def levelId (k : Nat) : Text := idAt (List.replicate k 0)

/-- The tree of a session is a single branch of `k` closed nodes over an open one that holds a
judgment, and the ids spell out the positions. -/
structure Branches (s : Session) (k : Nat) (j : Judgment) : Prop where
  coherent : s.proof.Coherent
  numbered : s.proof.tree.Numbered
  tree_eq : ∃ labels node, labels.length = k ∧ (∀ label ∈ labels, label.rule.isSome) ∧
    node.isOpen ∧ node.sequent.toJudgment = j ∧ s.proof.tree = .spine labels (.node node [])

lemma branches_start (sequent : Sequent) (supply : Supply) :
    Branches ⟨.start sequent, supply⟩ 0 sequent.toJudgment :=
  ⟨coherent_start sequent, numbered_start sequent, [], { id := rootId, sequent }, rfl, by simp, rfl,
    rfl, rfl⟩

variable {s : Session} {k : Nat} {j : Judgment} {tactic : Tactic} {closing : Closing}

/-- A call at the lower end of a branch succeeds if the tactic asks for a closing of the judgment
there. It closes the open node and puts the new nodes below it. -/
lemma Branches.run (h : s.Branches k j)
    (hclosing : ∀ id, ∀ node : Node, node.sequent.toJudgment = j →
      tactic.closing s.proof id node = .ok closing) :
    let after := (s.run (levelId k) tactic).session
    (s.run (levelId k) tactic).outcome = .ok () ∧ after.proof.Coherent ∧ after.proof.tree.Numbered ∧
      ∃ labels label, labels.length = k ∧ (∀ l ∈ labels, l.rule.isSome) ∧ label.rule.isSome ∧
        after.proof.tree = .spine labels
          (.node label (newChildren label.id 0 (s.supply.issueAll closing.subgoals).1)) := by
  obtain ⟨labels, node, hlength, hlabels, hopen, hnode, htree⟩ := h.tree_eq
  have hpart : s.proof.tree.at? (List.replicate k 0) = some (.node node []) := by
    rw [htree, ← hlength]
    exact Derivation.at?_spine labels _
  have hid : node.id = levelId k := h.numbered.id_eq hpart
  have hposition : s.proof.index.find? (levelId k) = some (List.replicate k 0) :=
    (h.coherent.find?_index h.numbered.distinctIds).mpr ⟨_, hpart, hid⟩
  have hcall : Calls (fun _ _ => True) s.proof (s.run (levelId k) tactic).session.proof :=
    .call s.supply (levelId k) tactic fun _ _ => trivial
  obtain ⟨hsession, hok⟩ :=
    run_of_ok h.coherent.indexed hposition hpart hopen (hclosing _ node hnode)
  refine ⟨hok, h.coherent.calls hcall, ?_, labels,
    { node with rule := some closing.rule, backLink := closing.backLink }, hlength, hlabels, rfl,
    ?_⟩
  · rw [hsession]
    exact h.numbered.close hpart hopen closing.rule closing.backLink _
  · rw [hsession, closedAt, htree, ← hlength]
    exact Derivation.modify_spine _ labels _

/-- A call of the reduction tactic makes a step on its side of the goal at the end of a branch,
and the branch is longer by one. -/
lemma Branches.reduce (h : s.Branches k j) {side : Side} {t : Term}
    (hstep : (j.goal.side side).step? = some t) :
    (s.run (levelId k) (.reduction side)).outcome = .ok () ∧
      (s.run (levelId k) (.reduction side)).session.Branches (k + 1)
        (j.withGoal (j.goal.withSide side t)) := by
  have hclosing : ∀ id, ∀ node : Node, node.sequent.toJudgment = j →
      (Tactic.reduction side).closing s.proof id node =
        .ok { rule := .reduction, subgoals := [j.withGoal (j.goal.withSide side t)] } := by
    rintro id node rfl
    exact Judgment.byReduction_eq_ok.mpr ⟨t, hstep, rfl⟩
  obtain ⟨hok, hcoherent, hnumbered, labels, label, hlength, hlabels, hlabel, htree⟩ :=
    h.run hclosing
  refine ⟨hok, hcoherent, hnumbered, labels ++ [label], _, by simp [hlength], ?_, rfl, rfl,
    htree.trans (Derivation.spine_concat labels label _).symm⟩
  exact List.forall_mem_append.mpr ⟨hlabels, List.forall_mem_singleton.mpr hlabel⟩

/-- Reflexivity completes a branch at whose end the two sides are the same. -/
lemma Branches.finish (h : s.Branches k j) (hsame : j.goal.lhs = j.goal.rhs) :
    let p := (s.run (levelId k) .reflexivity).session.proof
    (s.run (levelId k) .reflexivity).outcome = .ok () ∧ p.isComplete ∧ p.openNodes = [] ∧
      p.depth = k + 1 := by
  have hclosing : ∀ id, ∀ node : Node, node.sequent.toJudgment = j →
      Tactic.reflexivity.closing s.proof id node = .ok { rule := .reflexivity } := by
    rintro id node rfl
    exact Judgment.byReflexivity_eq_ok.mpr ⟨hsame, rfl⟩
  intro p
  obtain ⟨hok, -, -, labels, label, hlength, hlabels, hlabel, htree⟩ := h.run hclosing
  have hp : p.tree = .spine labels (.node label []) := htree
  have hclosed : ∀ l ∈ labels ++ [label], ¬ l.isOpen := by
    intro l hl
    rw [Node.isOpen, Bool.not_eq_true, Option.isNone_eq_false_iff]
    exact List.forall_mem_append.mpr ⟨hlabels, List.forall_mem_singleton.mpr hlabel⟩ l hl
  refine ⟨hok, ?_, ?_, ?_⟩
  · rw [isComplete, hp]
    exact Derivation.isComplete_spine hlabels
      (Derivation.isComplete_node.mpr (.inr ⟨hlabel, by simp⟩))
  · rw [openNodes, Derivation.openNodes, hp, Derivation.nodes_spine, Derivation.nodes_node]
    exact List.filter_eq_nil_iff.mpr hclosed
  · rw [depth, hp, Derivation.depth_spine, hlength]
    rfl

/-! ### Replays -/

/-- A row of `n` reductions of one side, from the level `k` of a branch downwards. -/
def reductions (side : Side) (k n : Nat) : List (Text × Tactic) :=
  (List.range' k n).map fun level => (levelId level, .reduction side)

/-- The script that makes `n` reductions of the left side and `m` of the right side, and closes what
is left by reflexivity. -/
def replay (n m : Nat) : List (Text × Tactic) :=
  reductions .lhs 0 n ++ reductions .rhs n m ++ [(levelId (n + m), .reflexivity)]

/-- A row of reductions succeeds as long as the side has steps. -/
lemma Branches.run_reductions (h : s.Branches k j) (side : Side) {n : Nat} {t : Term}
    (hsteps : (j.goal.side side).stepFor? n = some t) :
    s.outcomes (reductions side k n) = List.replicate n (.ok ()) ∧
      (s.runAll (reductions side k n)).Branches (k + n)
        (j.withGoal (j.goal.withSide side t)) := by
  induction n generalizing s k j with
  | zero =>
      obtain rfl : j.goal.side side = t := Option.some.inj hsteps
      have hgoal : j.goal.withSide side (j.goal.side side) = j.goal := by cases side <;> rfl
      rw [hgoal]
      exact ⟨rfl, h⟩
  | succ n ih =>
      obtain ⟨t', hstep, hrest⟩ := Option.bind_eq_some_iff.mp hsteps
      obtain ⟨hok, hbranch⟩ := h.reduce hstep
      have hside : (j.goal.withSide side t').side side = t' := by cases side <;> rfl
      have hgoal : (j.goal.withSide side t').withSide side t = j.goal.withSide side t := by
        cases side <;> rfl
      obtain ⟨houtcomes, hend⟩ := ih hbranch ((congrArg (Term.stepFor? n) hside).trans hrest)
      refine ⟨?_, ?_⟩
      · rw [List.replicate_succ, ← houtcomes, ← hok]
        rfl
      · rw [Nat.add_assoc, Nat.add_comm 1 n] at hend
        rw [← hgoal]
        exact hend

/-- **Evaluation replayed as a proof**: let bounded reductions lead from the two sides of the goal
of a sequent to the same term, by `n` and by `m` steps. Then, in the proof of this sequent, `n`
reductions of the left side and `m` of the right side, at `root`, `root.0`, `root.0.0` and so on,
succeed one after the other, and so does reflexivity at the last node. The proof is then complete,
no node is open, and its depth is `n + m + 1`. -/
theorem outcomes_replay (sequent : Sequent) (supply : Supply) (leftBound rightBound : Int)
    (hsame : (sequent.goal.lhs.reduce leftBound).term = (sequent.goal.rhs.reduce rightBound).term) :
    let n := (sequent.goal.lhs.reduce leftBound).steps
    let m := (sequent.goal.rhs.reduce rightBound).steps
    let s : Session := ⟨.start sequent, supply⟩
    let p := (s.runAll (replay n m)).proof
    s.outcomes (replay n m) = List.replicate (n + m + 1) (.ok ()) ∧
      p.isComplete ∧ p.openNodes = [] ∧ p.depth = n + m + 1 := by
  intro n m s p
  obtain ⟨hleft, hmiddle⟩ := (branches_start sequent supply).run_reductions .lhs
    (sequent.goal.lhs.stepFor?_reduce leftBound)
  obtain ⟨hright, hend⟩ := hmiddle.run_reductions .rhs
    (sequent.goal.rhs.stepFor?_reduce rightBound)
  rw [Nat.zero_add] at hright hend
  obtain ⟨hlast, hcomplete, hopen, hdepth⟩ := hend.finish hsame
  have hp : p = (((s.runAll (reductions .lhs 0 n)).runAll (reductions .rhs n m)).run
      (levelId (n + m)) .reflexivity).session.proof := by
    rw [← runAll_append]
    exact congrArg Session.proof (runAll_append s _ [(levelId (n + m), .reflexivity)])
  rw [hp]
  refine ⟨?_, hcomplete, hopen, hdepth⟩
  rw [replay, outcomes_append, outcomes_append, hleft, runAll_append, hright, outcomes, hlast,
    outcomes, List.replicate_append_replicate]
  exact List.replicate_succ'.symm

/-- On the left two steps are needed, since the first one throws an argument away and uncovers
another redex; on the right one step leads to the same variable. The replay closes four nodes. -/
theorem outcomes_replay_uncovered_redex :
    let discard (t u : Term) : Term := .app (.fork .leaf t) u
    let sequent : Sequent :=
      { hypotheses := [⟨.var "y", .leaf⟩]
        goal := ⟨discard (discard (.var "x") (.var "y")) .leaf, discard (.var "x") (.ref "K")⟩
        id := "s1" }
    let s : Session := ⟨.start sequent, {}⟩
    let p := (s.runAll (replay 2 1)).proof
    (sequent.goal.lhs.reduce 2).term = (sequent.goal.rhs.reduce 1000).term ∧
      (replay 2 1).map Prod.fst = ["root", "root.0", "root.0.0", "root.0.0.0"] ∧
      s.outcomes (replay 2 1) = List.replicate 4 (.ok ()) ∧
      p.isComplete ∧ p.openNodes = [] ∧ p.depth = 4 := by
  intro discard sequent s p
  have hsame : (sequent.goal.lhs.reduce 2).term = (sequent.goal.rhs.reduce 1000).term := by decide
  exact ⟨hsame, by decide, outcomes_replay sequent {} 2 1000 hsame⟩

end Session

end TreeCalculus
