import TreeCalculus.Term

/-!
Reduction of terms.

An application of a fork to an argument is contracted by one of five rules:

* `△ △ y z ⟶ y`,
* `△ (△ x) y z ⟶ x z (y z)`,
* `△ (△ w x) y △ ⟶ w`,
* `△ (△ w x) y (△ u) ⟶ x u`,
* `△ (△ w x) y (△ u v) ⟶ y u v`.

Variables and references are never looked into, so a normal form may still be open.

* `Term.contract?`: the rules at the root.
* `Term.step?`: one step, at the first redex in pre-order.
* `Term.reduceFor`, `Term.reduce`: steps until none is left or a bound is reached.
-/

namespace TreeCalculus.Term

variable {ν : Type}

/-- Apply a rule at the root. -/
def contract? : Term ν → Option (Term ν)
  | app (fork leaf y) _ => some y
  | app (fork (stem x) y) z => some (app (app x z) (app y z))
  | app (fork (fork w x) y) z =>
      match z with
      | leaf => some w
      | stem u => some (app x u)
      | fork u v => some (app (app y u) v)
      | _ => none
  | _ => none

/-- One step: at the root if a rule applies there, else in the operator, else in the argument. -/
def step? : Term ν → Option (Term ν)
  | leaf => none
  | var _ => none
  | ref _ => none
  | t@(app left right) =>
      match t.contract? with
      | some reduct => some reduct
      | none =>
          match left.step? with
          | some left' => some (app left' right)
          | none =>
              match right.step? with
              | some right' => some (app left right')
              | none => none

/-- Whether no step is left. -/
def isNormal (t : Term ν) : Bool := t.step?.isNone

/-- Make at most `bound` steps from `t`, the first `done` of which lie behind. -/
def reduceFrom (done : Nat) : (bound : Nat) → (t : Term ν) → Term ν × Nat
  | 0, t => (t, done)
  | bound + 1, t =>
      match t.step? with
      | none => (t, done)
      | some t' => reduceFrom (done + 1) bound t'

/-- Make steps until none is left or `bound` of them are made; also count them. -/
def reduceFor (bound : Nat) (t : Term ν) : Term ν × Nat := t.reduceFrom 0 bound

/-- The outcome of a bounded reduction. -/
structure Reduced (ν : Type := Text) where
  /-- The last term. -/
  term : Term ν
  /-- How many steps led to it. -/
  steps : Nat
  /-- Whether the bound ended the reduction, rather than the lack of a redex. -/
  atBound : Bool

/-- Reduce under a bound that may be any integer; a negative one allows no step. -/
def reduce (t : Term ν) (bound : Int) : Reduced ν :=
  let result := t.reduceFor bound.toNat
  { term := result.1, steps := result.2, atBound := result.2 == bound.toNat }

/-- The bound in force where none is given. -/
def defaultBound : Nat := 1000

/-- The results of up to `count` successive steps; `none` marks that no step was left. -/
def trace : (count : Nat) → Term ν → List (Option (Term ν))
  | 0, _ => []
  | count + 1, t =>
      match t.step? with
      | none => [none]
      | some t' => some t' :: trace count t'

end TreeCalculus.Term
