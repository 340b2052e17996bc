import TreeCalculus.Proof.Derivation

/-!
Proofs in progress.

A proof is a derivation together with an index that gives the position of a node by its id. Looking
a node up goes through the index; traversals go through the tree. The two agree on proofs that were
built here from a single sequent. A saved proof may repeat ids, and then the index knows the last
node in pre-order that has the id.

* `Proof.start`, `Proof.ofTree`: a proof of one open node, and the proof of a given tree.
* `Proof.find?`: the part of the tree whose root has a given id, according to the index.
* `Proof.applyRule`: close an open node and put new open nodes below it.
-/

namespace TreeCalculus

/-- A derivation with an index of its nodes. -/
structure Proof (ν : Type := Text) where
  tree : Derivation ν
  /-- The positions of the nodes by their ids, in the order in which the ids came. -/
  index : Table Position ν

namespace Proof

variable {ν : Type} [BEq ν] [Naming ν]

/-- The id of the node with which a proof starts. -/
def rootId : Text := "root"

/-- The proof whose only node is open. -/
def start (sequent : Sequent ν) : Proof ν :=
  { tree := .node { id := Naming.ofText rootId, sequent } []
    index := ⟨[(Naming.ofText rootId, [])]⟩ }

/-- The proof of a given tree: parents are recorded anew and the index is built in pre-order. -/
def ofTree (tree : Derivation ν) : Proof ν :=
  { tree := tree.relink none, index := .ofEntries (tree.entries []) }

/-- Rebuild the index and the record of parents from the tree. -/
def reindex (p : Proof ν) : Proof ν := ofTree p.tree

/-- The part of the tree that the index gives for an id. -/
def find? (p : Proof ν) (id : ν) : Option (Derivation ν) :=
  (p.index.find? id).bind p.tree.at?

/-- The node that the index gives for an id. -/
def node? (p : Proof ν) (id : ν) : Option (Node ν) := (p.find? id).map Derivation.label

/-- The node that the index gives for an id, if it is open. -/
def openNode? (p : Proof ν) (id : ν) : Option (Node ν) := (p.node? id).filter Node.isOpen

/-- The id of the child number `i` of a node. -/
def childId (id : ν) (i : Nat) : ν := Naming.ofText (Naming.toText id ++ "." ++ toString i)

/-- New open nodes below a node, one for each sequent, numbered from `i`. -/
def newChildren (id : ν) (i : Nat) : List (Sequent ν) → List (Derivation ν)
  | [] => []
  | sequent :: rest =>
      .node { id := childId id i, sequent, parent := Naming.present id } [] ::
        newChildren id (i + 1) rest

/-- A derivation whose root is closed by a rule, with more children behind the present ones. -/
def closeRoot (rule : Rule) (backLink : Option ν) (added : List (Derivation ν)) :
    Derivation ν → Derivation ν
  | .node label children => .node { label with rule := some rule, backLink } (children ++ added)

/-- Close an open node by a rule, with one new open node below it for each subgoal. The ids of the
new nodes are numbered from zero whatever children are there already. Nothing is done for an id that
is unknown or belongs to a closed node. -/
def applyRule (p : Proof ν) (id : ν) (rule : Rule) (subgoals : List (Sequent ν))
    (backLink : Option ν) : Option (Proof ν) :=
  (p.index.find? id).bind fun position =>
    (p.tree.at? position).bind fun part =>
      if part.label.isOpen then
        let added := newChildren id 0 subgoals
        let first := part.children.length
        some
          { tree := p.tree.modify (closeRoot rule backLink added) position
            index := p.index.insertAll (Derivation.entriesOfAll position first added) }
      else none

/-! ### Progress -/

/-- Whether the tree is complete. -/
def isComplete (p : Proof ν) : Bool := p.tree.isComplete

/-- The open nodes of the tree in pre-order. -/
def openNodes (p : Proof ν) : List (Node ν) := p.tree.openNodes

/-- The number of nodes on the longest way from the root down. -/
def depth (p : Proof ν) : Nat := p.tree.depth

end Proof

end TreeCalculus
