import TreeCalculus.Proof.Rule
import TreeCalculus.Sequent

/-!
Proof trees.

A derivation is a finite tree of nodes. A node is open as long as it has no rule. A node with a
back-link appeals to one of its ancestors, and this is what makes a proof cyclic. The place of a
node is a position: the list of child numbers on the way down from the root.

* `Node`, `Derivation`: the nodes and the trees.
* `Derivation.at?`, `Derivation.modify`: the part at a position, and the tree with that part
  changed.
* `Derivation.nodes`, `Derivation.rows`: the nodes in pre-order, plain and with their depths.
* `Derivation.entries`: the ids in pre-order with the positions of their nodes.
* `Derivation.relink`: the tree in which every node records the id of its parent.
* `Derivation.isComplete`, `Derivation.openNodes`, `Derivation.depth`: what a tree tells about the
  progress of a proof.
-/

namespace TreeCalculus

/-- A node of a proof, without the nodes below it. -/
structure Node (ν : Type := Text) where
  id : ν
  sequent : Sequent ν
  /-- The rule that closed the node; an open node has none. -/
  rule : Option Rule := none
  /-- The id of the node above. -/
  parent : Option ν := none
  /-- The id of the ancestor to which the node appeals. -/
  backLink : Option ν := none
  deriving DecidableEq, Inhabited

/-- Whether a node still waits for a rule. -/
def Node.isOpen {ν : Type} (n : Node ν) : Bool := n.rule.isNone

/-- A finite tree of nodes. -/
inductive Derivation (ν : Type := Text) where
  | node (label : Node ν) (children : List (Derivation ν))
  deriving Inhabited

/-- The child numbers on the way down from the root. -/
abbrev Position := List Nat

namespace Derivation

variable {ν : Type}

/-- The node at the root of a derivation. -/
def label : Derivation ν → Node ν
  | node label _ => label

/-- The derivations below the root. -/
def children : Derivation ν → List (Derivation ν)
  | node _ children => children

/-! ### Positions -/

/-- The part of a derivation at a position. -/
def at? : Derivation ν → Position → Option (Derivation ν)
  | d, [] => some d
  | node _ children, i :: rest => children[i]?.bind fun child => child.at? rest

/-- The derivation with the part at a position changed by `f`. -/
def modify (f : Derivation ν → Derivation ν) : Derivation ν → Position → Derivation ν
  | d, [] => f d
  | node label children, i :: rest =>
      node label (children.modify i fun child => child.modify f rest)

/-! ### Traversals in pre-order -/

mutual

/-- The nodes of a derivation in pre-order, each with its depth, counted from `depth`. -/
def rows (depth : Nat) : Derivation ν → List (Nat × Node ν)
  | node label children => (depth, label) :: rowsOfAll (depth + 1) children

/-- The rows of several derivations one after the other. -/
def rowsOfAll (depth : Nat) : List (Derivation ν) → List (Nat × Node ν)
  | [] => []
  | d :: rest => rows depth d ++ rowsOfAll depth rest

end

/-- The nodes of a derivation in pre-order. -/
def nodes (d : Derivation ν) : List (Node ν) := (d.rows 0).map Prod.snd

mutual

/-- The ids of a derivation in pre-order, with the positions of their nodes below `position`. -/
def entries (position : Position) : Derivation ν → List (ν × Position)
  | node label children => (label.id, position) :: entriesOfAll position 0 children

/-- The entries of the children of a node at `position`, the first of which has number `i`. -/
def entriesOfAll (position : Position) (i : Nat) : List (Derivation ν) → List (ν × Position)
  | [] => []
  | d :: rest => entries (position ++ [i]) d ++ entriesOfAll position (i + 1) rest

end

mutual

/-- Let every node record the id of the node above it; `parent` stands above the root. What was
recorded before is lost. -/
def relink [Naming ν] (parent : Option ν) : Derivation ν → Derivation ν
  | node label children =>
      node { label with parent } (relinkAll (Naming.present label.id) children)

/-- Let several derivations record `parent` as the node above them. -/
def relinkAll [Naming ν] (parent : Option ν) : List (Derivation ν) → List (Derivation ν)
  | [] => []
  | d :: rest => relink parent d :: relinkAll parent rest

end

/-! ### Progress -/

mutual

/-- A derivation is complete if its root has a back-link, or a rule and complete children. -/
def isComplete : Derivation ν → Bool
  | node label children => label.backLink.isSome || (label.rule.isSome && areComplete children)

/-- Whether all of several derivations are complete. -/
def areComplete : List (Derivation ν) → Bool
  | [] => true
  | d :: rest => isComplete d && areComplete rest

end

/-- The open nodes in pre-order. -/
def openNodes (d : Derivation ν) : List (Node ν) := d.nodes.filter Node.isOpen

mutual

/-- The number of nodes on the longest way from the root down. -/
def depth : Derivation ν → Nat
  | node _ children => 1 + greatestDepth children

/-- The greatest depth of several derivations, and zero for none. -/
def greatestDepth : List (Derivation ν) → Nat
  | [] => 0
  | d :: rest => max (depth d) (greatestDepth rest)

end

end Derivation

end TreeCalculus
