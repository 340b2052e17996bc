import TreeCalculus.Proof.Basic

/-!
The outline of a proof.

Every node takes a line with its id, its rule and its back-link, and below it the hypotheses and the
goal; deeper nodes stand further to the right. A title may precede, and a line on the state of the
proof ends the outline. A title and a back-link are shown only if they are filled.
-/

namespace TreeCalculus

namespace Outline

variable {ν : Type}

/-- The indentation at some depth. -/
def indent (depth : Nat) : Text := Text.replicate (2 * depth) ' '

/-- The rule of a node, or a mark that it is open. -/
def ruleText : Option Rule → Text
  | none => "OPEN"
  | some rule => rule.name

/-- The back-link of a node. -/
def linkText [Naming ν] : Option ν → Text
  | none => ""
  | some link => if Naming.isFilled link then " -> " ++ Naming.toText link else ""

/-- The lines of a node. -/
def nodeText [Naming ν] (depth : Nat) (node : Node ν) : Text :=
  indent depth ++ "[" ++ Naming.toText node.id ++ "] " ++ ruleText node.rule ++
    linkText node.backLink ++ "\n" ++
    Text.join (node.sequent.hypotheses.map fun h => indent depth ++ "    " ++ h.toText ++ "\n") ++
    indent depth ++ "  ⊢ " ++ node.sequent.goal.toText ++ "\n"

/-- The title and the end of its line. -/
def titleText : Option Text → Text
  | none => ""
  | some title => if title.isEmpty then "" else title ++ "\n"

/-- The last line: whether the proof is complete, and how many nodes are open. -/
def statusText (p : Proof ν) : Text :=
  "Status: " ++ (if p.isComplete then "COMPLETE" else "IN PROGRESS") ++ " (" ++
    toString p.openNodes.length ++ " open)\n"

end Outline

/-- The outline of a proof under an optional title. -/
def Proof.outline {ν : Type} [Naming ν] (p : Proof ν) (title : Option Text) : Text :=
  Outline.titleText title ++
    Text.join ((p.tree.rows 0).map fun row => Outline.nodeText row.1 row.2) ++
    Outline.statusText p

end TreeCalculus
