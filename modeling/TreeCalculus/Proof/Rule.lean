import TreeCalculus.Text.Basic

/-!
The rules that close a node of a proof, with the names under which they are saved and shown.
-/

namespace TreeCalculus

/-- The rule by which a node is closed. -/
inductive Rule where
  | reflexivity
  | symmetry
  | transitivity
  | congruence
  | reduction
  /-- A link back to an ancestor with the same goal. -/
  | induction
  /-- An instance of a theorem. -/
  | hypothesis
  /-- A rewrite with a hypothesis, or an unfolded definition. -/
  | rewrite
  | caseSplit
  deriving DecidableEq

namespace Rule

/-- The name of a rule. -/
def name : Rule → Text
  | reflexivity => "Reflexivity"
  | symmetry => "Symmetry"
  | transitivity => "Transitivity"
  | congruence => "Congruence"
  | reduction => "Reduction"
  | induction => "Induction"
  | hypothesis => "Hypothesis"
  | rewrite => "Rewrite"
  | caseSplit => "CaseSplit"

/-- All rules. -/
def all : List Rule :=
  [reflexivity, symmetry, transitivity, congruence, reduction, induction, hypothesis, rewrite,
   caseSplit]

/-- The rule with a given name. -/
def ofName? (name : Text) : Option Rule := all.find? (·.name == name)

end Rule

end TreeCalculus
