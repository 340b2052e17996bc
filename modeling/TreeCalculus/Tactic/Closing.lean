import TreeCalculus.Fresh
import TreeCalculus.Matching
import TreeCalculus.Proof.Ancestry
import TreeCalculus.Reduction
import TreeCalculus.Tactic.Basic

/-!
What each tactic asks for.

A closing says how a node is to be closed: by which rule, with which judgments left to prove, and
with which back-link. Each tactic computes its closing from the judgment of the node alone,
induction excepted, which looks at the ancestors. No judgment receives a name here.

* `Closing`: the request.
* `Judgment.renamingApart`: fresh names for the variables of a theorem.
* `Judgment.cases`: the three cases of a variable.
* `Tactic.closing`: the request of each tactic, or its failure.
-/

namespace TreeCalculus

/-- How a node is to be closed. -/
structure Closing (ν : Type := Text) where
  rule : Rule
  /-- What is left to prove. -/
  subgoals : List (Judgment ν) := []
  backLink : Option ν := none
  /-- The theorem that was used, and what its variables stand for. -/
  instantiated : Option (Text × Substitution ν) := none

namespace Judgment

variable {ν : Type} [BEq ν] [Naming ν]

/-! ### Fresh names -/

/-- Give each of several names a fresh one, apart from the names in use and from one another. -/
def renamingFrom (used : List Text) : (names : List Text) → Renaming → Renaming
  | [], given => given
  | name :: rest, given =>
      let new := freshName name used
      renamingFrom (new :: used) rest (given.insert name new)

/-- A renaming of the variables of `thm` apart from the variables of `j`, in sorted order. -/
def renamingApart (j : Judgment ν) (thm : Judgment) : Renaming :=
  renamingFrom (Naming.texts j.vars) (sortedNames thm.vars) .empty

/-- The cases of a variable: a leaf, a stem, a fork, with fresh variables for the arguments. -/
def cases (j : Judgment ν) (x : ν) : List (Judgment ν) :=
  let used := Naming.texts j.vars
  let y := freshName "y" used
  let z := freshName "z" (y :: used)
  [j.subst ⟨[(x, .leaf)]⟩, j.subst ⟨[(x, .stem (.var (Naming.ofText y)))]⟩,
   j.subst ⟨[(x, .fork (.var (Naming.ofText y)) (.var (Naming.ofText z)))]⟩]

/-- The kind of the first variable that cannot be looked up. The list of the variables begins with
the last one found. -/
def unhashable? (j : Judgment ν) : Option Json.Value.Kind :=
  Naming.firstUnhashable? j.vars.reverse

/-! ### The tactics on a judgment -/

/-- Close a goal whose sides are equal. -/
def byReflexivity (j : Judgment ν) : Except (Failure ν) (Closing ν) :=
  if j.goal.lhs.equals j.goal.rhs then .ok { rule := .reflexivity }
  else .error (.rejected .notReflexive)

/-- Turn the goal around. -/
def bySymmetry (j : Judgment ν) : Except (Failure ν) (Closing ν) :=
  .ok { rule := .symmetry, subgoals := [j.withGoal j.goal.flip] }

/-- Go through a term in the middle. -/
def byTransitivity (j : Judgment ν) (mid : Term ν) : Except (Failure ν) (Closing ν) :=
  .ok
    { rule := .transitivity
      subgoals := [j.withGoal ⟨j.goal.lhs, mid⟩, j.withGoal ⟨mid, j.goal.rhs⟩] }

/-- Compare two applications part by part. -/
def byCongruence (j : Judgment ν) : Except (Failure ν) (Closing ν) :=
  match j.goal with
  | ⟨.app a b, .app c d⟩ =>
      .ok { rule := .congruence, subgoals := [j.withGoal ⟨a, c⟩, j.withGoal ⟨b, d⟩] }
  | _ => .error (.rejected .notApplications)

/-- Reduce a side by one step. -/
def byReduction (j : Judgment ν) (side : Side) : Except (Failure ν) (Closing ν) :=
  match (j.goal.side side).step? with
  | some t => .ok { rule := .reduction, subgoals := [j.withGoal (j.goal.withSide side t)] }
  | none => .error (.rejected (.irreducible side))

/-- The hypothesis with a number that may be any integer. -/
def hypothesis? (j : Judgment ν) (index : Int) : Option (Equation ν) :=
  if index < 0 then none else j.hypotheses[index.toNat]?

/-- The closing by a rewrite that puts `new` in the place of the selected subterm. -/
def replacing (j : Judgment ν) (sel : Selection) (new : Term ν) :
    Except (Failure ν) (Closing ν) :=
  match j.goal.replace sel new with
  | .ok goal => .ok { rule := .rewrite, subgoals := [j.withGoal goal] }
  | .error reason => .error (.mismatch reason)

/-- Rewrite the selected subterm with a hypothesis. -/
def byRewrite (j : Judgment ν) (sel : Selection) (index : Int) :
    Except (Failure ν) (Closing ν) :=
  match j.hypothesis? index with
  | none => .error (.rejected (.noHypothesis index))
  | some hypothesis =>
      match j.goal.select sel with
      | .error reason => .error (.mismatch reason)
      | .ok selected =>
          if hypothesis.lhs.equals selected then j.replacing sel hypothesis.rhs
          else .error (.rejected .hypothesisMismatch)

/-- Unfold the selected reference. -/
def byUnfolding (j : Judgment ν) (sel : Selection) (table : Definitions ν) :
    Except (Failure ν) (Closing ν) :=
  match j.goal.select sel with
  | .error reason => .error (.mismatch reason)
  | .ok (.ref name) =>
      match Naming.unhashable? name with
      | some kind => .error (.unhashable kind)
      | none =>
          match table.find? name with
          | some body => j.replacing sel body
          | none => .error (.rejected (.unknownDefinition name))
  | .ok _ => .error (.rejected .notReference)

/-- Split on the selected variable. -/
def byCases (j : Judgment ν) (sel : Selection) : Except (Failure ν) (Closing ν) :=
  match j.goal.select sel with
  | .error reason => .error (.mismatch reason)
  | .ok (.var x) =>
      match j.unhashable? with
      | some kind => .error (.unhashable kind)
      | none => .ok { rule := .caseSplit, subgoals := j.cases x }
  | .ok _ => .error (.rejected .notVariable)

/-- Use a theorem: its goal, renamed apart, has to match the goal, left side first. -/
def byTheorem (j : Judgment ν) (thm : Theorem) : Except (Failure ν) (Closing ν) :=
  match j.unhashable? with
  | some kind => .error (.unhashable kind)
  | none =>
      let apart := j.renamingApart thm.sequent.toJudgment
      match (thm.sequent.goal.rename apart).embed.matchAgainst j.goal with
      | none => .error (.rejected (.theoremMismatch thm.name))
      | some bindings =>
          .ok
            { rule := .hypothesis
              subgoals := thm.sequent.hypotheses.map fun h =>
                j.withGoal ((h.rename apart).embed.subst bindings)
              instantiated := some (thm.name, bindings) }

end Judgment

variable {ν : Type} [BEq ν] [Naming ν]

/-- Appeal to the nearest ancestor with the same goal. -/
def Proof.byInduction (p : Proof ν) (id : ν) : Except (Failure ν) (Closing ν) :=
  match p.matchingAncestor? id with
  | some ancestor => .ok { rule := .induction, backLink := some ancestor.id }
  | none => .error (.rejected .noMatchingAncestor)

/-- What a tactic asks for at the node of a proof that was looked up under `id`. -/
def Tactic.closing (p : Proof ν) (id : ν) (node : Node ν) :
    Tactic ν → Except (Failure ν) (Closing ν)
  | .reflexivity => node.sequent.byReflexivity
  | .symmetry => node.sequent.bySymmetry
  | .transitivity mid => node.sequent.byTransitivity mid
  | .congruence => node.sequent.byCongruence
  | .reduction side => node.sequent.byReduction side
  | .rewrite sel index => node.sequent.byRewrite sel index
  | .unfold sel table => node.sequent.byUnfolding sel table
  | .caseSplit sel => node.sequent.byCases sel
  | .useTheorem thm => node.sequent.byTheorem thm
  | .induction => p.byInduction id

end TreeCalculus
