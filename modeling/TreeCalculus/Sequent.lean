import TreeCalculus.Substitution

/-!
Sequents: hypotheses and one goal equation, under a name.

A judgment is what a sequent says; a sequent is a judgment that has received a name. Names come from
a supply that counts `s1`, `s2`, `s3`, and so on, and never gives one out twice.

* `Judgment`, `Sequent`: the two records.
* `Supply.issue`, `Supply.issueAll`: name one judgment, or several in order.
-/

namespace TreeCalculus

/-- Hypotheses and a goal: `h₁, …, hₙ ⊢ lhs = rhs`. -/
structure Judgment (ν : Type := Text) where
  hypotheses : List (Equation ν) := []
  goal : Equation ν
  deriving DecidableEq, Inhabited

namespace Judgment

variable {ν : Type} [BEq ν]

/-- The names of the variables of the goal and of the hypotheses, each once. -/
def vars (j : Judgment ν) : List ν := Equation.varsOf (j.goal :: j.hypotheses)

/-- Substitute in the goal and in all hypotheses. -/
def subst (j : Judgment ν) (s : Substitution ν) : Judgment ν :=
  { hypotheses := j.hypotheses.map (·.subst s), goal := j.goal.subst s }

/-- The same hypotheses with another goal. -/
def withGoal (j : Judgment ν) (goal : Equation ν) : Judgment ν := { j with goal }

end Judgment

/-- A judgment under a name. -/
structure Sequent (ν : Type := Text) extends Judgment ν where
  id : ν
  deriving DecidableEq, Inhabited

/-- The supply of names for sequents. -/
structure Supply where
  /-- The number in the next name. -/
  next : Nat := 1
  deriving DecidableEq

namespace Supply

variable {ν : Type} [Naming ν]

/-- Name a judgment. -/
def issue (supply : Supply) (j : Judgment ν) : Sequent ν × Supply :=
  ({ toJudgment := j, id := Naming.ofText ("s" ++ toString supply.next) }, ⟨supply.next + 1⟩)

/-- Name judgments in order. -/
def issueAll (supply : Supply) : List (Judgment ν) → List (Sequent ν) × Supply
  | [] => ([], supply)
  | j :: rest =>
      let first := supply.issue j
      let others := first.2.issueAll rest
      (first.1 :: others.1, others.2)

end Supply

end TreeCalculus
