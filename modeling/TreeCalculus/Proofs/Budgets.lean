import Mathlib.Tactic.Lemma
import TreeCalculus.Reduction

/-!
Budgets of steps.

A bounded reduction ends because the bound is reached or because no step is left, and it may end for
both reasons at once. Either way it makes some number of steps within the bound, and fewer than the
bound allows only if the last term is normal. These two facts determine the term and the count, so
they serve as the description of a bounded reduction, and what is said about budgets follows from
counting: a budget may be spent in two parts, and what lies beyond a normal form is never spent.

* `Term.stepFor?`, `Term.stepFor?_add`: exact numbers of steps.
* `Term.SpendsWithin`: the description of a bounded reduction; `SpendsWithin.unique` and
  `SpendsWithin.trans` say that it determines the outcome and that budgets add up.
* `Term.spendsWithin_reduce`, `Term.SpendsWithin.reduce_eq`: reduction does what is described.
* `Term.budget_splits_anywhere`: a budget spent in two parts.
-/

namespace TreeCalculus.Term

/-! ### Numbers of steps -/

/-- The term after exactly `n` steps, if there are that many. -/
def stepFor? : Nat → Term → Option Term
  | 0, t => some t
  | n + 1, t => t.step?.bind (stepFor? n)

/-- Steps can be made in two parts. -/
lemma stepFor?_add (m n : Nat) (t : Term) :
    t.stepFor? (m + n) = (t.stepFor? m).bind (stepFor? n) := by
  induction m generalizing t with
  | zero =>
      rw [Nat.zero_add]
      rfl
  | succ m ih =>
      rw [Nat.succ_add, stepFor?, stepFor?, Option.bind_assoc]
      exact congrArg t.step?.bind (funext ih)

/-- From a term without a step, no steps lead to the term itself. -/
lemma eq_of_stepFor?_of_step?_eq_none {t u : Term} {n : Nat} (hend : t.step? = none)
    (h : t.stepFor? n = some u) : n = 0 ∧ u = t := by
  cases n with
  | zero => exact ⟨rfl, (Option.some.inj h).symm⟩
  | succ n =>
      rw [stepFor?, hend] at h
      cases h

/-! ### Bounded reductions -/

/-- From `t`, exactly `n` steps within a budget lead to `u`, and what is left of the budget is of no
use there. -/
structure SpendsWithin (t : Term) (budget n : Nat) (u : Term) : Prop where
  steps : t.stepFor? n = some u
  le : n ≤ budget
  normal : n < budget → u.step? = none

namespace SpendsWithin

variable {t u v : Term} {a b i j : Nat}

/-- The shorter of two reductions within a budget has ended at a term without a step, so the other
one is not longer. -/
lemma count_le (h : t.SpendsWithin a i u) (h' : t.SpendsWithin a j v) : j ≤ i := by
  refine Nat.le_of_not_lt fun hlt => ?_
  have hnormal : u.step? = none := h.normal (Nat.lt_of_lt_of_le hlt h'.le)
  have hrest : u.stepFor? (j - i) = some v := by
    have hsteps := h'.steps
    rwa [show j = i + (j - i) by omega, stepFor?_add, h.steps, Option.bind_some] at hsteps
  have hnone : j - i = 0 := (eq_of_stepFor?_of_step?_eq_none hnormal hrest).1
  omega

/-- The term and the count of a reduction within a budget are determined. -/
lemma unique (h : t.SpendsWithin a i u) (h' : t.SpendsWithin a j v) : i = j ∧ u = v := by
  obtain rfl : i = j := Nat.le_antisymm (h'.count_le h) (h.count_le h')
  exact ⟨rfl, Option.some.inj (h.steps.symm.trans h'.steps)⟩

/-- Budgets that are spent one after the other add up, and so do the counts. -/
lemma trans (h : t.SpendsWithin a i u) (h' : u.SpendsWithin b j v) :
    t.SpendsWithin (a + b) (i + j) v := by
  refine ⟨?_, Nat.add_le_add h.le h'.le, fun hlt => ?_⟩
  · rw [stepFor?_add, h.steps]
    exact h'.steps
  · -- one of the two parts has not been used up
    rcases Nat.lt_or_ge i a with hi | hi
    · obtain ⟨-, rfl⟩ := eq_of_stepFor?_of_step?_eq_none (h.normal hi) h'.steps
      exact h.normal hi
    · exact h'.normal (by omega)

/-- Nothing is spent on a normal term. -/
lemma of_isNormal (h : t.isNormal) (budget : Nat) : t.SpendsWithin budget 0 t :=
  ⟨rfl, Nat.zero_le budget, fun _ => Option.isNone_iff_eq_none.mp h⟩

end SpendsWithin

/-- A bounded reduction spends what it counts. -/
lemma exists_spendsWithin_reduceFrom (bound done : Nat) (t : Term) :
    ∃ n, (t.reduceFrom done bound).2 = done + n ∧
      t.SpendsWithin bound n (t.reduceFrom done bound).1 := by
  induction bound generalizing done t with
  | zero => exact ⟨0, rfl, rfl, Nat.le_refl 0, fun h => absurd h (Nat.lt_irrefl 0)⟩
  | succ bound ih =>
      cases hstep : t.step? with
      | none =>
          have hstop : t.reduceFrom done (bound + 1) = (t, done) := by rw [reduceFrom, hstep]
          rw [hstop]
          exact ⟨0, rfl, rfl, Nat.zero_le _, fun _ => hstep⟩
      | some t' =>
          have hnext : t.reduceFrom done (bound + 1) = t'.reduceFrom (done + 1) bound := by
            rw [reduceFrom, hstep]
          obtain ⟨n, hcount, hsteps, hle, hnormal⟩ := ih (done + 1) t'
          rw [hnext]
          refine ⟨n + 1, by omega, ?_, by omega, fun hlt => hnormal (by omega)⟩
          rw [stepFor?, hstep]
          exact hsteps

lemma spendsWithin_reduce (t : Term) (bound : Int) :
    t.SpendsWithin bound.toNat (t.reduce bound).steps (t.reduce bound).term := by
  obtain ⟨n, hcount, hspends⟩ := exists_spendsWithin_reduceFrom bound.toNat 0 t
  rw [Nat.zero_add] at hcount
  rw [reduce, reduceFor, hcount]
  exact hspends

/-- Whatever is spent within a budget is what reduction gives. -/
lemma SpendsWithin.reduce_eq {t u : Term} {bound : Int} {n : Nat}
    (h : t.SpendsWithin bound.toNat n u) :
    (t.reduce bound).term = u ∧ (t.reduce bound).steps = n := by
  obtain ⟨hcount, hterm⟩ := (t.spendsWithin_reduce bound).unique h
  exact ⟨hterm, hcount⟩

/-- The last term of a reduction is reached by the counted steps. -/
lemma stepFor?_reduce (t : Term) (bound : Int) :
    t.stepFor? (t.reduce bound).steps = some (t.reduce bound).term :=
  (t.spendsWithin_reduce bound).steps

/-! ### Splitting a budget -/

/-- **Budgets split anywhere**: a reduction under the bound `a`, followed by one under the bound
`b` from where the first has ended, gives the term of a reduction under `a + b`, and the counts
add up. The first reduction makes exactly the steps it counts, at most `a` of them, and if it
makes fewer, it ends at a normal form. Once a bound leads to a normal form, every larger bound
gives the same term and the same count. -/
theorem budget_splits_anywhere (t : Term) {a b : Int} (ha : 0 ≤ a) (hb : 0 ≤ b) :
    let first := t.reduce a
    let second := first.term.reduce b
    ((t.reduce (a + b)).term = second.term ∧
        (t.reduce (a + b)).steps = first.steps + second.steps) ∧
      (t.stepFor? first.steps = some first.term ∧ first.steps ≤ a ∧
        (first.steps < a → first.term.isNormal)) ∧
      (first.term.isNormal → ∀ c, a ≤ c →
        (t.reduce c).term = first.term ∧ (t.reduce c).steps = first.steps) := by
  intro first second
  have hfirst : t.SpendsWithin a.toNat first.steps first.term := t.spendsWithin_reduce a
  have hsecond : first.term.SpendsWithin b.toNat second.steps second.term :=
    first.term.spendsWithin_reduce b
  refine ⟨?_, ⟨hfirst.steps, ?_, fun hlt => ?_⟩, fun hnormal c hac => ?_⟩
  · apply SpendsWithin.reduce_eq
    rw [Int.toNat_add ha hb]
    exact hfirst.trans hsecond
  · have := hfirst.le
    omega
  · exact Option.isNone_iff_eq_none.mpr (hfirst.normal (by omega))
  · apply SpendsWithin.reduce_eq
    have hrest := hfirst.trans (.of_isNormal hnormal (c - a).toNat)
    rwa [Nat.add_zero, show a.toNat + (c - a).toNat = c.toNat by omega] at hrest

/-- The first argument to be thrown away uncovers another redex, so a variable is reached by two
steps. Under the bound of exactly two steps both reasons to end coincide; the five steps that are
allowed behind it are not made, nor are those that a bound of a thousand allows. -/
theorem budget_splits_anywhere_exact_bound :
    let discard (t u : Term) : Term := .app (.fork .leaf t) u
    let t := discard (discard (.var "x") (.var "y")) .leaf
    let first := t.reduce 2
    let second := first.term.reduce 5
    (first.term = .var "x" ∧ first.steps = 2 ∧ second.steps = 0) ∧
      ((t.reduce (2 + 5)).term = second.term ∧
        (t.reduce (2 + 5)).steps = first.steps + second.steps) ∧
      first.term.isNormal ∧ (t.reduce 1000).term = first.term ∧
      (t.reduce 1000).steps = first.steps := by
  intro discard t first second
  have hnormal : first.term.isNormal := by decide
  obtain ⟨hsplit, -, hbeyond⟩ :=
    budget_splits_anywhere t (show (0 : Int) ≤ 2 by decide) (show (0 : Int) ≤ 5 by decide)
  exact ⟨by decide, hsplit, hnormal, hbeyond hnormal 1000 (by decide)⟩

end TreeCalculus.Term
