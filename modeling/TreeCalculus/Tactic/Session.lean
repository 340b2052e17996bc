import TreeCalculus.Event
import TreeCalculus.Tactic.Closing

/-!
Sessions: a proof under construction with the supply of names for its sequents.

* `Session.start`: the session of one open goal.
* `Session.applyRule`: close a node directly, without a tactic.
* `Session.run`: run a tactic at a node. The subgoals are named in order and the node is closed; a
  failed tactic names nothing.
-/

namespace TreeCalculus

/-- A proof under construction and the supply of names for its sequents. -/
structure Session (ν : Type := Text) where
  proof : Proof ν
  supply : Supply

/-- What became of an attempt: the session after it, the outcome, and the events on the way. -/
structure Attempt (α : Type) (ν : Type := Text) where
  session : Session ν
  outcome : α
  events : List (Event ν)

namespace Session

variable {ν : Type} [BEq ν] [Naming ν]

/-- The session that starts with one open goal. -/
def start (supply : Supply) (goal : Judgment ν) : Session ν :=
  let issued := supply.issue goal
  { proof := .start issued.1, supply := issued.2 }

/-- Close a node by a rule with given sequents below it; tell whether it was open. -/
def applyRule (s : Session ν) (id : ν) (rule : Rule) (subgoals : List (Sequent ν))
    (backLink : Option ν) : Attempt Bool ν :=
  match s.proof.applyRule id rule subgoals backLink with
  | some proof =>
      { session := { s with proof }
        outcome := true
        events := [.applied rule id subgoals.length] }
  | none => { session := s, outcome := false, events := [.ignored id] }

/-- The events of a failure at a node. -/
def failureEvents (id : ν) : Failure ν → List (Event ν)
  | .rejected reason => [.rejected id reason]
  | .mismatch _ => []
  | .unhashable _ => []
  | .lostNode => []

/-- Close a node as a tactic asks. -/
def close (s : Session ν) (node : Node ν) (closing : Closing ν) :
    Attempt (Except (Failure ν) Unit) ν :=
  let issued := s.supply.issueAll closing.subgoals
  let closed :=
    { s with supply := issued.2 }.applyRule node.id closing.rule issued.1 closing.backLink
  { session := closed.session
    outcome := if closed.outcome then .ok () else .error .lostNode
    events :=
      (closing.instantiated.map fun used => Event.instantiated used.1 used.2).toList ++
        closed.events }

/-- Run a tactic at a node. -/
def run (s : Session ν) (id : ν) (tactic : Tactic ν) : Attempt (Except (Failure ν) Unit) ν :=
  match s.proof.openNode? id with
  | none =>
      let failure := Failure.rejected (.notOpen id)
      { session := s, outcome := .error failure, events := failureEvents id failure }
  | some node =>
      match tactic.closing s.proof id node with
      | .error failure =>
          { session := s, outcome := .error failure, events := failureEvents id failure }
      | .ok closing => s.close node closing

end Session

end TreeCalculus
