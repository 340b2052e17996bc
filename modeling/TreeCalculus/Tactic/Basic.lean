import TreeCalculus.Library
import TreeCalculus.Path
import TreeCalculus.Proof.Basic

/-!
Tactics and the ways in which they fail.

A tactic is a request to close one open node. It is rejected when the node or its goal does not fit,
and it fails with a mismatch when a path does not fit the goal.

* `Side`, `Selection`: a side of a goal, and a subterm of it.
* `Tactic`: the ten tactics with their arguments.
* `Rejection`, `Failure`: the causes of failure and their wording.
-/

namespace TreeCalculus

/-! ### Selections -/

/-- A side of an equation. -/
inductive Side where
  | lhs
  | rhs
  deriving DecidableEq

namespace Side

/-- The name of a side in requests. -/
def name : Side → Text
  | lhs => "lhs"
  | rhs => "rhs"

/-- The name of a side in messages. -/
def label : Side → Text
  | lhs => "LHS"
  | rhs => "RHS"

/-- The side with a given name. -/
def ofName? (name : Text) : Option Side := [lhs, rhs].find? (·.name == name)

end Side

/-- A subterm of a goal, by side and path. -/
structure Selection where
  side : Side
  path : Path := []
  deriving DecidableEq

namespace Equation

variable {ν : Type}

/-- One side of an equation. -/
def side (e : Equation ν) : Side → Term ν
  | .lhs => e.lhs
  | .rhs => e.rhs

/-- The equation with one side exchanged. -/
def withSide (e : Equation ν) (side : Side) (t : Term ν) : Equation ν :=
  match side with
  | .lhs => ⟨t, e.rhs⟩
  | .rhs => ⟨e.lhs, t⟩

/-- The selected subterm. -/
def select (e : Equation ν) (sel : Selection) : Except PathMismatch (Term ν) :=
  (e.side sel.side).subterm sel.path

/-- The equation with the selected subterm replaced by `new`. -/
def replace (e : Equation ν) (sel : Selection) (new : Term ν) :
    Except PathMismatch (Equation ν) :=
  ((e.side sel.side).replace sel.path new).map (e.withSide sel.side)

end Equation

/-! ### Tactics -/

/-- A request to close an open node. -/
inductive Tactic (ν : Type := Text) where
  /-- Close `t = t`. -/
  | reflexivity
  /-- Turn the goal around. -/
  | symmetry
  /-- Split `a = c` into `a = mid` and `mid = c`. -/
  | transitivity (mid : Term ν)
  /-- Split `a b = c d` into `a = c` and `b = d`. -/
  | congruence
  /-- Make one reduction step on a side. -/
  | reduction (side : Side)
  /-- Replace the selected left side of a hypothesis by its right side. -/
  | rewrite (sel : Selection) (hypothesis : Int)
  /-- Replace the selected reference by what it stands for. -/
  | unfold (sel : Selection) (table : Definitions ν)
  /-- Split on the selected variable: leaf, stem or fork. -/
  | caseSplit (sel : Selection)
  /-- Use the goal of a theorem, with its hypotheses as new goals. -/
  | useTheorem (thm : Theorem)
  /-- Appeal to the nearest ancestor with the same goal. -/
  | induction

/-! ### Failures -/

/-- Why a tactic is rejected. -/
inductive Rejection (ν : Type := Text) where
  | notOpen (node : ν)
  | notReflexive
  | notApplications
  | irreducible (side : Side)
  | noHypothesis (index : Int)
  | hypothesisMismatch
  | notReference
  | unknownDefinition (name : ν)
  | notVariable
  | theoremMismatch (name : Text)
  | noMatchingAncestor
  deriving DecidableEq

namespace Rejection

variable {ν : Type}

/-- The three sorts of rejection. -/
inductive Kind where
  /-- The goal does not have the shape that the tactic needs. -/
  | shapeMismatch
  /-- Something that the tactic refers to is missing. -/
  | lookupFailure
  /-- The node is unknown or closed. -/
  | notOpen
  deriving DecidableEq

/-- The name of a sort of rejection. -/
def Kind.name : Kind → Text
  | shapeMismatch => "shape_mismatch"
  | lookupFailure => "lookup_failure"
  | notOpen => "not_open"

/-- The sort of a rejection. -/
def kind : Rejection ν → Kind
  | notOpen _ => .notOpen
  | noHypothesis _ | unknownDefinition _ | noMatchingAncestor => .lookupFailure
  | notReflexive | notApplications | irreducible _ | hypothesisMismatch | notReference
  | notVariable | theoremMismatch _ => .shapeMismatch

/-- The wording of a rejection. -/
def message [Naming ν] : Rejection ν → Text
  | notOpen node => "Node " ++ Naming.quoted node ++ " is not an open goal"
  | notReflexive => "Goal is not reflexive (LHS != RHS)"
  | notApplications => "Congruence needs an application on both sides"
  | irreducible side => side.label ++ " cannot be reduced further"
  | noHypothesis index => "No hypothesis #" ++ toString index ++ " in this sequent"
  | hypothesisMismatch => "Assumption LHS does not match selected subterm"
  | notReference => "Selected term is not a definition"
  | unknownDefinition name => "Definition " ++ Naming.quoted name ++ " not found"
  | notVariable => "Case split needs a variable"
  | theoremMismatch name => "Theorem " ++ Text.quoted name ++ " does not match the goal"
  | noMatchingAncestor => "No matching ancestor found for induction"

end Rejection

/-- How a tactic can fail. -/
inductive Failure (ν : Type := Text) where
  /-- The tactic does not apply. -/
  | rejected (reason : Rejection ν)
  /-- A path does not fit the goal. -/
  | mismatch (reason : PathMismatch)
  /-- A name is of a kind that cannot be looked up. -/
  | unhashable (kind : Json.Value.Kind)
  /-- The node vanished from the index while the tactic was at work. -/
  | lostNode

end TreeCalculus
