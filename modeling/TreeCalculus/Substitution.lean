import TreeCalculus.Table
import TreeCalculus.Term

/-!
Substitution, renaming, and the variables of terms.

Every replacement of variables is one traversal, `Term.instantiate`, for a map from names to terms.
A substitution is a table that leaves the names it does not hold in place; a renaming is a table of
names. No term binds a variable, so nothing can be captured.

* `Term.instantiate`: replace every variable by its value.
* `Term.subst`, `Term.rename`, and the same for equations.
* `Term.addVars`, `Term.vars`, `Equation.varsOf`: the names that occur, each once.
* `sortedNames`: names in the order of their code points.
-/

namespace TreeCalculus

/-- A finite substitution of terms for variables. -/
abbrev Substitution (ν : Type := Text) := Table (Term ν) ν

/-- A finite renaming of variables. -/
abbrev Renaming := Table Text

variable {ν : Type} [BEq ν]

/-- The term that a substitution puts in the place of a variable. -/
def Substitution.value (s : Substitution ν) (name : ν) : Term ν :=
  (s.find? name).getD (.var name)

/-- The name that a renaming gives to a variable. -/
def Renaming.value (r : Renaming) (name : Text) : Text := (r.find? name).getD name

namespace Term

/-- Replace every variable by its value. -/
def instantiate {ν : Type} (σ : ν → Term ν) : Term ν → Term ν
  | leaf => leaf
  | var name => σ name
  | ref name => ref name
  | app left right => app (left.instantiate σ) (right.instantiate σ)

/-- Replace every variable that the substitution holds. -/
def subst (t : Term ν) (s : Substitution ν) : Term ν := t.instantiate s.value

/-- Rename every variable that the renaming holds. -/
def rename (t : Term) (r : Renaming) : Term := t.instantiate fun name => var (r.value name)

/-- The names of the variables of a term, added to names collected before. -/
def addVars : Term ν → List ν → List ν
  | leaf, names => names
  | var name, names => names.insert name
  | ref _, names => names
  | app left right, names => right.addVars (left.addVars names)

/-- The names of the variables of a term, each once. -/
def vars (t : Term ν) : List ν := t.addVars []

end Term

namespace Equation

/-- Substitute in both sides. -/
def subst (e : Equation ν) (s : Substitution ν) : Equation ν := ⟨e.lhs.subst s, e.rhs.subst s⟩

/-- Rename in both sides. -/
def rename (e : Equation) (r : Renaming) : Equation := ⟨e.lhs.rename r, e.rhs.rename r⟩

/-- The names of the variables of both sides, added to names collected before. -/
def addVars (e : Equation ν) (names : List ν) : List ν :=
  e.rhs.addVars (e.lhs.addVars names)

/-- The names of the variables of several equations, each once. -/
def varsOf (equations : List (Equation ν)) : List ν :=
  equations.foldl (fun names e => e.addVars names) []

end Equation

/-- Names in the order of their code points. -/
def sortedNames (names : List Text) : List Text := names.mergeSort Text.le

end TreeCalculus
