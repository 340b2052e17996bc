import TreeCalculus.Proof.Basic

/-!
Ancestors and back-links.

The ancestors of a node are found by following the recorded parents through the index. A walk that
ends visits no id twice, so the number of ids in the index bounds its length.

* `Proof.ancestors`, `Proof.pathToRoot`: the nodes above a node, nearest first, and the ids from a
  node upwards.
* `Proof.matchingAncestor?`: the nearest ancestor with the same goal.
* `Proof.invalidBackLinks`: the nodes whose back-link does not lead to an ancestor with the same
  goal.
-/

namespace TreeCalculus.Proof

variable {ν : Type} [BEq ν]

/-- Follow recorded parents for at most `bound` nodes, beginning with the id `parent`. -/
def walkUp (p : Proof ν) : (bound : Nat) → (parent : Option ν) → List (Node ν)
  | 0, _ => []
  | _ + 1, none => []
  | bound + 1, some id =>
      match p.node? id with
      | none => []
      | some node => node :: p.walkUp bound node.parent

/-- The proper ancestors of a node, nearest first. -/
def ancestors (p : Proof ν) (id : ν) : List (Node ν) :=
  p.walkUp p.index.size ((p.node? id).bind Node.parent)

/-- The ids from a node up to the root; none for an unknown node. -/
def pathToRoot (p : Proof ν) (id : ν) : List ν :=
  if p.index.contains id then id :: (p.ancestors id).map Node.id else []

variable [Naming ν]

/-- The nearest proper ancestor with the same goal. -/
def matchingAncestor? (p : Proof ν) (id : ν) : Option (Node ν) :=
  (p.node? id).bind fun node =>
    (p.ancestors id).find? fun ancestor => ancestor.sequent.goal.equals node.sequent.goal

/-- Whether a back-link leads from a node to an ancestor with the same goal. -/
def isValidLink (p : Proof ν) (node : Node ν) (link : ν) : Bool :=
  match (p.ancestors node.id).find? fun ancestor => Naming.same ancestor.id link with
  | none => false
  | some target => target.sequent.goal.equals node.sequent.goal

/-- The ids, in pre-order, of the nodes whose back-link is not valid. -/
def invalidBackLinks (p : Proof ν) : List ν :=
  (p.tree.nodes.filter fun node =>
    match node.backLink with
    | none => false
    | some link => !p.isValidLink node link).map Node.id

end TreeCalculus.Proof
