import TreeCalculus.Tactic.Basic

/-!
Events: what the library reports about its own work.

Every event has a level, the part of the program that reports it, and a wording; a line of a log
joins the three.
-/

namespace TreeCalculus

/-- What can be reported. -/
inductive Event (ν : Type := Text) where
  /-- A tactic does not apply to a node. -/
  | rejected (node : ν) (reason : Rejection ν)
  /-- A theorem is used, with values for its variables. -/
  | instantiated (theoremName : Text) (bindings : Substitution ν)
  /-- A rule closes a node and leaves subgoals. -/
  | applied (rule : Rule) (node : ν) (subgoals : Nat)
  /-- A rule finds no open node. -/
  | ignored (node : ν)
  /-- A reduction ends because of its bound. -/
  | stoppedAtBound (bound : Int)

/-- How grave an event is. -/
inductive Event.Level where
  | debug
  | warning
  deriving DecidableEq

namespace Event

variable {ν : Type}

/-- The name of a level. -/
def Level.name : Level → Text
  | debug => "DEBUG"
  | warning => "WARNING"

/-- Rejections are warnings; everything else is detail. -/
def level : Event ν → Level
  | rejected _ _ => .warning
  | _ => .debug

/-- The part of the program that reports an event. -/
def origin : Event ν → Text
  | rejected _ _ | instantiated _ _ => "treeq.tactics"
  | applied _ _ _ | ignored _ => "treeq.proof"
  | stoppedAtBound _ => "treeq.reduction"

variable [Naming ν]

/-- A printed term between quotes; a variable alone is shown like its name. -/
def quotedTerm : Term ν → Text
  | .var name => Naming.quoted name
  | t => Text.quoted t.toText

/-- A substitution in braces, names and printed terms quoted, in the order of binding. -/
def bindingsText (bindings : Substitution ν) : Text :=
  let entry := fun (binding : ν × Term ν) =>
    Naming.quoted binding.1 ++ ": " ++ quotedTerm binding.2
  "\x7b" ++ Text.intercalate ", " (bindings.entries.map entry) ++ "\x7d"

/-- The wording of an event. -/
def message : Event ν → Text
  | rejected node reason => "Tactic rejected at " ++ Naming.toText node ++ ": " ++ reason.message
  | instantiated theoremName bindings =>
      "Theorem " ++ Text.quoted theoremName ++ " instantiated with " ++ bindingsText bindings
  | applied rule node subgoals =>
      "Applied " ++ rule.name ++ " at " ++ Naming.toText node ++ " (" ++ toString subgoals ++
        " subgoals)"
  | ignored node =>
      "apply_rule ignored: node " ++ Naming.quoted node ++ " is unknown or closed"
  | stoppedAtBound bound => "Reduction stopped at bound of " ++ toString bound ++ " steps"

/-- The line of a log. -/
def line (e : Event ν) : Text := e.level.name ++ " " ++ e.origin ++ ": " ++ e.message

end Event

end TreeCalculus
