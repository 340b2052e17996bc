import TreeCalculus.Substitution

/-!
One-sided matching.

Only the variables of the pattern are bound; those of the target count as constants. The bindings
are threaded from left to right, so the first occurrence of a pattern variable fixes its binding and
every later occurrence has to agree with it. New bindings come after the ones present.
-/

namespace TreeCalculus

variable {ν : Type} [BEq ν] [Naming ν]

namespace Term

/-- Extend `bindings` so that the pattern becomes the target. -/
def matchAgainst :
    (pattern target : Term ν) → (bindings : Substitution ν) → Option (Substitution ν)
  | leaf, leaf, bindings => some bindings
  | var name, target, bindings =>
      match bindings.find? name with
      | some bound => if bound.equals target then some bindings else none
      | none => some (bindings.insert name target)
  | ref name, ref name', bindings => if Naming.same name name' then some bindings else none
  | app left right, app left' right', bindings =>
      (left.matchAgainst left' bindings).bind fun extended => right.matchAgainst right' extended
  | _, _, _ => none

end Term

/-- Match the left sides and then the right sides of two equations. -/
def Equation.matchAgainst (pattern target : Equation ν) : Option (Substitution ν) :=
  (pattern.lhs.matchAgainst target.lhs .empty).bind fun bindings =>
    pattern.rhs.matchAgainst target.rhs bindings

end TreeCalculus
