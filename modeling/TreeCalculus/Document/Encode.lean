import TreeCalculus.Json.Printer
import TreeCalculus.Proof.Basic
import TreeCalculus.Template

/-!
Terms, sequents and proofs as JSON values.

A term is an object with its tag first. A node has its rule as a name or `null`, and its parent and
back-link only where it has them. The index of a proof is not written, since the tree determines it.

* `Term.toValue`, `Template.toValue`, `Equation.toValue`, `Sequent.toValue`, `Derivation.toValue`.
* `Proof.toValue`, `Proof.save`: a whole proof, as a value and as a text.
-/

namespace TreeCalculus

open Json (Value)

variable {ν : Type} [Naming ν]

/-- A term as an object. -/
def Term.toValue : Term ν → Value
  | .leaf => .obj [("type", .str Kind.leaf.tag)]
  | .var name => .obj [("type", .str Kind.var.tag), ("name", Naming.toValue name)]
  | .ref name => .obj [("type", .str Kind.ref.tag), ("name", Naming.toValue name)]
  | .app left right =>
      .obj [("type", .str Kind.app.tag), ("left", left.toValue), ("right", right.toValue)]

/-- A template as an object. -/
def Template.toValue : Template ν → Value
  | .hole => .obj [("type", .str holeTag)]
  | .leaf => (Term.leaf : Term ν).toValue
  | .var name => (Term.var name).toValue
  | .ref name => (Term.ref name).toValue
  | .app left right =>
      .obj [("type", .str Term.Kind.app.tag), ("left", left.toValue), ("right", right.toValue)]

/-- An equation as an object. -/
def Equation.toValue (e : Equation ν) : Value :=
  .obj [("lhs", e.lhs.toValue), ("rhs", e.rhs.toValue)]

/-- A sequent as an object. -/
def Sequent.toValue (s : Sequent ν) : Value :=
  .obj
    [("id", Naming.toValue s.id), ("hypotheses", .arr (s.hypotheses.map Equation.toValue)),
     ("goal", s.goal.toValue)]

/-- A member that is left out where there is nothing to write. -/
def optionalMember (key : Text) (name : Option ν) : List (Text × Value) :=
  (name.map fun name => (key, Naming.toValue name)).toList

/-- The rule of a node as a name or `null`. -/
def ruleValue : Option Rule → Value
  | none => .null
  | some rule => .str rule.name

namespace Derivation

mutual

/-- A node with everything below it as an object. -/
def toValue : Derivation ν → Value
  | node label children =>
      .obj
        (("id", Naming.toValue label.id) :: ("sequent", label.sequent.toValue) ::
          ("rule", ruleValue label.rule) :: ("children", .arr (toValues children)) ::
          (optionalMember "parentId" label.parent ++ optionalMember "backLinkTo" label.backLink))

/-- Several nodes, one after the other. -/
def toValues : List (Derivation ν) → List Value
  | [] => []
  | d :: rest => toValue d :: toValues rest

end

end Derivation

namespace Proof

/-- A proof as a value. -/
def toValue (p : Proof ν) : Value := .obj [("root", p.tree.toValue)]

/-- The text of a saved proof. -/
def save (p : Proof ν) : Text := Json.render p.toValue

end Proof

end TreeCalculus
