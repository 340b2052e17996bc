import TreeCalculus.Name

/-!
Terms of the tree calculus and equations between them.

A term is the constant leaf `△`, a variable, a reference to a named definition, or an application.
Stems and forks are no constructors but the shapes of applications that collect the arguments of a
leaf: `△ x` and `△ w x`.

* `Term`, `Term.Kind`: the terms, for any type of names, and the name of the outermost constructor.
* `Term.equals`: the comparison of terms.
* `Term.map`, `Term.embed`: terms with other names, and terms with texts for names among them.
* `Term.stem`, `Term.fork`, `Term.stemArg?`, `Term.forkArgs?`: the two shapes, built and taken
  apart.
* `Term.apply`: an application to several arguments, read from the left.
* `Term.toText`, `Equation.toText`: the printed form. Application associates to the left and an
  argument is put in parentheses exactly when it is an application itself.
-/

namespace TreeCalculus

/-- Terms of the tree calculus. -/
inductive Term (ν : Type := Text) where
  /-- The sole constant, written `△`. -/
  | leaf
  /-- A free variable. -/
  | var (name : ν)
  /-- A reference to a definition; reduction never looks behind it. -/
  | ref (name : ν)
  /-- Application. -/
  | app (left right : Term ν)
  deriving DecidableEq, Inhabited

namespace Term

variable {ν μ : Type}

/-! ### Kinds -/

/-- The outermost constructor of a term. -/
inductive Kind where
  | leaf
  | var
  | ref
  | app
  deriving DecidableEq

/-- The kind of a term. -/
def kind : Term ν → Kind
  | leaf => .leaf
  | var _ => .var
  | ref _ => .ref
  | app _ _ => .app

/-- The tag of a kind in saved terms. -/
def Kind.tag : Kind → Text
  | leaf => "Leaf"
  | var => "Variable"
  | ref => "DefinitionRef"
  | app => "App"

/-- All kinds. -/
def Kind.all : List Kind := [.leaf, .var, .ref, .app]

/-- The kind with a given tag. -/
def Kind.ofTag? (tag : Text) : Option Kind := all.find? (·.tag == tag)

/-- The name of a kind in messages. -/
def Kind.label : Kind → Text
  | leaf => "Leaf"
  | var => "Var"
  | ref => "DefRef"
  | app => "App"

/-! ### Stems and forks -/

/-- A leaf with one argument, `△ x`. -/
@[match_pattern] def stem (x : Term ν) : Term ν := app leaf x

/-- A leaf with two arguments, `△ w x`. -/
@[match_pattern] def fork (w x : Term ν) : Term ν := app (app leaf w) x

/-- The argument of a stem. -/
def stemArg? : Term ν → Option (Term ν)
  | stem x => some x
  | _ => none

/-- The arguments of a fork. -/
def forkArgs? : Term ν → Option (Term ν × Term ν)
  | fork w x => some (w, x)
  | _ => none

/-- Whether a term is a stem. -/
def isStem (t : Term ν) : Bool := t.stemArg?.isSome

/-- Whether a term is a fork. -/
def isFork (t : Term ν) : Bool := t.forkArgs?.isSome

/-- Apply a term to several arguments from left to right. -/
def apply (head : Term ν) (args : List (Term ν)) : Term ν := args.foldl app head

/-! ### Names -/

/-- The term with every name mapped. -/
def map (f : ν → μ) : Term ν → Term μ
  | leaf => leaf
  | var name => var (f name)
  | ref name => ref (f name)
  | app left right => app (left.map f) (right.map f)

variable [Naming ν]

/-- A term with texts for names, among the terms with names of another type. -/
def embed (t : Term) : Term ν := t.map Naming.ofText

/-- Whether two terms have the same form and the same names. -/
def equals : Term ν → Term ν → Bool
  | leaf, leaf => true
  | var name, var name' => Naming.same name name'
  | ref name, ref name' => Naming.same name name'
  | app left right, app left' right' => left.equals left' && right.equals right'
  | _, _ => false

/-- Terms with texts for names are compared by equality. -/
@[simp] theorem equals_eq_true {a b : Term} : a.equals b = true ↔ a = b := by
  induction a generalizing b <;> cases b <;> simp [equals, *]

/-- Texts as names stay as they are. -/
@[simp] theorem embed_text (t : Term) : (t.embed : Term) = t := by
  induction t with
  | leaf | var name | ref name => rfl
  | app left right hleft hright =>
      rw [embed] at hleft hright
      rw [embed, map, hleft, hright]

/-! ### Printed form -/

/-- Prefix notation; an argument stands in parentheses iff it is an application. -/
def toText : Term ν → Text
  | leaf => "△"
  | var name => Naming.toText name
  | ref name => "<" ++ Naming.toText name ++ ">"
  | app left right =>
      left.toText ++ " " ++
        match right with
        | app _ _ => "(" ++ right.toText ++ ")"
        | _ => right.toText

end Term

/-- An equation between two terms. No orientation is implied. -/
structure Equation (ν : Type := Text) where
  lhs : Term ν
  rhs : Term ν
  deriving DecidableEq, Inhabited

namespace Equation

variable {ν μ : Type}

/-- The equation read from right to left. -/
def flip (e : Equation ν) : Equation ν := ⟨e.rhs, e.lhs⟩

/-- The equation with every name mapped. -/
def map (f : ν → μ) (e : Equation ν) : Equation μ := ⟨e.lhs.map f, e.rhs.map f⟩

variable [Naming ν]

/-- An equation with texts for names, among those with names of another type. -/
def embed (e : Equation) : Equation ν := e.map Naming.ofText

/-- Whether the sides of two equations are equal, in order. -/
def equals (e e' : Equation ν) : Bool := e.lhs.equals e'.lhs && e.rhs.equals e'.rhs

@[simp] theorem equals_eq_true {e e' : Equation} : e.equals e' = true ↔ e = e' := by
  cases e
  cases e'
  simp [equals]

@[simp] theorem embed_text (e : Equation) : (e.embed : Equation) = e := by
  have hside (t : Term) : t.map Naming.ofText = t := t.embed_text
  rw [embed, map, hside, hside]

/-- Both sides printed, with an equals sign between them. -/
def toText (e : Equation ν) : Text := e.lhs.toText ++ " = " ++ e.rhs.toText

end Equation

end TreeCalculus
