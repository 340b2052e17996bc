import TreeCalculus.Text.Basic

/-!
Fresh names.

The candidates for a base name are the name itself and then the name followed by `1`, `2`, `3`, and
so on. They are pairwise distinct, so among the first `n + 1` of them one is missing from any list
of `n` names, and `freshName` returns the first such candidate.
-/

namespace TreeCalculus

/-- The candidates for a fresh name, in the order in which they are tried. -/
def freshCandidate (base : Text) : Nat → Text
  | 0 => base
  | n + 1 => base ++ toString (n + 1)

/-- The number of the first candidate that is not in use. -/
def freshNumber (base : Text) (used : List Text) : Nat :=
  ((List.range (used.length + 1)).find? fun n => decide (freshCandidate base n ∉ used)).getD 0

/-- The first candidate that is not in use. -/
def freshName (base : Text) (used : List Text) : Text :=
  freshCandidate base (freshNumber base used)

end TreeCalculus
