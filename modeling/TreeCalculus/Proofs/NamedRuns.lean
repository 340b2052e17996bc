import TreeCalculus.Proofs.Naming
import TreeCalculus.Tactic.Session

/-!
Calls of tactics on proofs with strings for names.

A call on the image of a proof is the image of the call: it closes the same node in the same way, or
fails for the same reason. So what is proved about proofs with texts for names holds of every saved
proof in which all names are strings.

* `Term.step?_embed`, `Term.matchAgainst_embed`, `Term.subterm_embed`, `Term.replace_embed`: what
  tactics do with terms.
* `Judgment.cases_embed`, `Judgment.renamingApart_embed`: fresh names are chosen alike.
* `Tactic.closing_embed`: a tactic asks for the image of what it asks for.
* `Proof.applyRule_embed`, `Session.run_embed`: closing a node, and whole calls.
-/

namespace TreeCalculus

open Json (Value)

/-! ### Substitution and matching -/

namespace Term

lemma instantiate_embed {σ : Text → Term} {τ : Value → Term Value}
    (h : ∀ x, τ (.str x) = (σ x).embed) (t : Term) :
    t.embed.instantiate τ = (t.instantiate σ).embed := by
  induction t with
  | leaf => rfl
  | var x => exact h x
  | ref n => rfl
  | app l r ihl ihr => rw [embed_app, instantiate, ihl, ihr, instantiate, embed_app]

lemma subst_embed (t : Term) (s : Substitution) :
    t.embed.subst (s.embed Term.embed) = (t.subst s).embed := by
  refine instantiate_embed (fun x => ?_) t
  rw [Substitution.value, Table.find?_embed, Substitution.value]
  cases s.find? x <;> rfl

lemma addVars_embed (t : Term) (names : List Text) :
    t.embed.addVars (names.map Value.str) = (t.addVars names).map .str := by
  induction t generalizing names with
  | leaf => rfl
  | var x =>
      have hcontains : (names.map Value.str).contains (.str x) = names.contains x := by
        induction names with
        | nil => rfl
        | cons y rest ih =>
            rw [List.map_cons, List.contains_cons, List.contains_cons, ih, Value.str_beq_str]
      have hvar : ((var x).embed : Term Value) = var (.str x) := rfl
      rw [hvar, addVars, addVars, List.insert, List.insert, hcontains]
      split_ifs <;> rfl
  | ref n => rfl
  | app l r ihl ihr => rw [embed_app, addVars, ihl, ihr, addVars]

/-- Matching images binds the same variables to the images of the same terms. -/
lemma matchAgainst_embed (pattern target : Term) (s : Substitution) :
    pattern.embed.matchAgainst target.embed (s.embed Term.embed) =
      (pattern.matchAgainst target s).map (Table.embed Term.embed) := by
  induction pattern generalizing target s with
  | leaf => cases target <;> rfl
  | var x =>
      have hvar : ((var x).embed : Term Value) = var (.str x) := rfl
      rw [hvar, matchAgainst, matchAgainst, Table.find?_embed]
      cases s.find? x with
      | none => exact congrArg some (Table.insert_embed Term.embed s x target)
      | some bound =>
          simp only [Option.map_some, equals_embed]
          split_ifs <;> rfl
  | ref n =>
      cases target with
      | ref m =>
          have href (k : Text) : ((ref k).embed : Term Value) = ref (.str k) := rfl
          rw [href, href, matchAgainst, matchAgainst, Naming.same_str, Naming.same_text]
          split_ifs <;> rfl
      | _ => rfl
  | app l r ihl ihr =>
      cases target with
      | app l' r' =>
          rw [embed_app, embed_app, matchAgainst, ihl, matchAgainst]
          cases l.matchAgainst l' s with
          | none => rfl
          | some mid => exact ihr r' mid
      | _ => rfl

/-! ### Paths and reduction -/

lemma subterm_embed (t : Term) (path : Path) :
    (t.embed : Term Value).subterm path = (t.subterm path).map embed := by
  rw [subterm, subterm]
  generalize ([] : Path) = walked
  induction path generalizing t walked with
  | nil => cases t <;> rfl
  | cons turn rest ih =>
      cases t with
      | app l r =>
          cases turn with
          | left => exact ih l _
          | right => exact ih r _
      | leaf | var x | ref n => cases turn <;> rfl

lemma replace_embed (t : Term) (path : Path) (new : Term) :
    (t.embed : Term Value).replace path new.embed = (t.replace path new).map embed := by
  induction path generalizing t with
  | nil => cases t <;> rfl
  | cons turn rest ih =>
      cases t with
      | app l r =>
          cases turn with
          | left =>
              rw [embed_app, replace, ih, replace]
              cases l.replace rest new <;> rfl
          | right =>
              rw [embed_app, replace, ih, replace]
              cases r.replace rest new <;> rfl
      | leaf | var x | ref n => cases turn <;> rfl

lemma contract?_embed (t : Term) : (t.embed : Term Value).contract? = t.contract?.map embed := by
  -- the rules look at the operator down to the first argument of its leaf, and then at the argument
  rcases t with _ | _ | _ | ⟨l, z⟩
  case app =>
    rcases l with _ | _ | _ | ⟨l, y⟩
    case app =>
      rcases l with _ | _ | _ | ⟨l, w⟩
      case app =>
        cases l
        case leaf =>
          rcases w with _ | _ | _ | ⟨w, x⟩
          case app =>
            rcases w with _ | _ | _ | ⟨w, w'⟩
            case app =>
              cases w
              case leaf =>
                rcases z with _ | _ | _ | ⟨z, v⟩
                case app =>
                  rcases z with _ | _ | _ | ⟨z, u⟩
                  case app => cases z <;> rfl
                  all_goals rfl
                all_goals rfl
              all_goals rfl
            all_goals rfl
          all_goals rfl
        all_goals rfl
      all_goals rfl
    all_goals rfl
  all_goals rfl

/-- A step of an image is the image of the step. -/
lemma step?_embed (t : Term) : (t.embed : Term Value).step? = t.step?.map embed := by
  induction t with
  | app l r ihl ihr =>
      have hcontract := contract?_embed (app l r)
      rw [embed_app] at hcontract ⊢
      rw [step?, step?, hcontract, ihl, ihr]
      cases (app l r).contract? with
      | some u => rfl
      | none => cases l.step? <;> cases r.step? <;> rfl
  | leaf | var x | ref n => rfl

end Term

namespace Equation

lemma side_embed (e : Equation) (side : Side) :
    (e.embed : Equation Value).side side = (e.side side).embed := by
  cases side <;> rfl

lemma withSide_embed (e : Equation) (side : Side) (t : Term) :
    (e.embed : Equation Value).withSide side t.embed = (e.withSide side t).embed := by
  cases side <;> rfl

lemma select_embed (e : Equation) (sel : Selection) :
    (e.embed : Equation Value).select sel = (e.select sel).map Term.embed := by
  rw [select, side_embed, Term.subterm_embed, select]

lemma replace_embed (e : Equation) (sel : Selection) (new : Term) :
    (e.embed : Equation Value).replace sel new.embed = (e.replace sel new).map embed := by
  rw [replace, side_embed, Term.replace_embed, replace]
  cases (e.side sel.side).replace sel.path new with
  | error reason => rfl
  | ok t => exact congrArg Except.ok (withSide_embed e sel.side t)

lemma subst_embed (e : Equation) (s : Substitution) :
    e.embed.subst (s.embed Term.embed) = (e.subst s).embed :=
  congrArg₂ mk (e.lhs.subst_embed s) (e.rhs.subst_embed s)

lemma addVars_embed (e : Equation) (names : List Text) :
    e.embed.addVars (names.map Value.str) = (e.addVars names).map .str := by
  have hlhs := e.lhs.addVars_embed names
  have hrhs := e.rhs.addVars_embed (e.lhs.addVars names)
  rw [← hlhs] at hrhs
  exact hrhs

lemma matchAgainst_embed (pattern target : Equation) :
    pattern.embed.matchAgainst target.embed =
      (pattern.matchAgainst target).map (Table.embed Term.embed) := by
  have hlhs : pattern.lhs.embed.matchAgainst target.lhs.embed .empty =
      (pattern.lhs.matchAgainst target.lhs .empty).map (Table.embed Term.embed) :=
    pattern.lhs.matchAgainst_embed target.lhs .empty
  refine (congrArg (Option.bind · _) hlhs).trans ?_
  rw [matchAgainst]
  cases pattern.lhs.matchAgainst target.lhs .empty with
  | none => rfl
  | some mid => exact pattern.rhs.matchAgainst_embed target.rhs mid

end Equation

/-! ### Judgments -/

namespace Judgment

variable (j : Judgment)

lemma vars_embed : j.embed.vars = j.vars.map .str := by
  have hall (es : List Equation) (names : List Text) :
      (es.map Equation.embed).foldl (fun names e => e.addVars names) (names.map Value.str) =
        (es.foldl (fun names e => e.addVars names) names).map .str := by
    induction es generalizing names with
    | nil => rfl
    | cons e rest ih =>
        rw [List.map_cons, List.foldl_cons, List.foldl_cons, Equation.addVars_embed, ih]
  exact hall (j.goal :: j.hypotheses) []

/-- The names in use are the same. -/
lemma texts_vars_embed : Naming.texts j.embed.vars = Naming.texts j.vars := by
  have htexts (names : List Text) : (names.map Value.str).filterMap Value.str? = names := by
    induction names with
    | nil => rfl
    | cons x rest ih => exact congrArg (List.cons x) ih
  rw [vars_embed]
  exact htexts j.vars

lemma unhashable?_embed : j.embed.unhashable? = none := by
  rw [unhashable?, vars_embed, ← List.map_reverse]
  exact Naming.firstUnhashable?_map_str _

lemma subst_embed (s : Substitution) : j.embed.subst (s.embed Term.embed) = (j.subst s).embed := by
  have hhypotheses : (j.hypotheses.map Equation.embed).map (·.subst (s.embed Term.embed)) =
      (j.hypotheses.map (·.subst s)).map Equation.embed := by
    rw [List.map_map, List.map_map]
    exact List.map_congr_left fun h _ => h.subst_embed s
  exact congrArg₂ mk hhypotheses (j.goal.subst_embed s)

lemma renamingApart_embed (thm : Judgment) : j.embed.renamingApart thm = j.renamingApart thm := by
  rw [renamingApart, texts_vars_embed, renamingApart]

lemma cases_embed (x : Text) : j.embed.cases (.str x) = (j.cases x).map embed := by
  have hcase (t : Term) : j.embed.subst ⟨[(Value.str x, t.embed)]⟩ =
      (j.subst ⟨[(x, t)]⟩).embed := j.subst_embed ⟨[(x, t)]⟩
  rw [cases, texts_vars_embed, cases, List.map_cons, List.map_cons, List.map_cons, List.map_nil,
    ← hcase, ← hcase, ← hcase]
  rfl

lemma hypothesis?_embed (index : Int) :
    j.embed.hypothesis? index = (j.hypothesis? index).map Equation.embed := by
  rw [hypothesis?, hypothesis?]
  split_ifs
  · rfl
  · exact List.getElem?_map

end Judgment

/-! ### Tactics -/

/-- The image of a tactic. -/
def Tactic.embed : Tactic → Tactic Value
  | reflexivity => .reflexivity
  | symmetry => .symmetry
  | transitivity mid => .transitivity mid.embed
  | congruence => .congruence
  | reduction side => .reduction side
  | rewrite sel index => .rewrite sel index
  | unfold sel table => .unfold sel table.embed
  | caseSplit sel => .caseSplit sel
  | useTheorem thm => .useTheorem thm
  | induction => .induction

/-- The image of the cause of a rejection. -/
def Rejection.embed : Rejection → Rejection Value
  | notOpen node => .notOpen (.str node)
  | notReflexive => .notReflexive
  | notApplications => .notApplications
  | irreducible side => .irreducible side
  | noHypothesis index => .noHypothesis index
  | hypothesisMismatch => .hypothesisMismatch
  | notReference => .notReference
  | unknownDefinition name => .unknownDefinition (.str name)
  | notVariable => .notVariable
  | theoremMismatch name => .theoremMismatch name
  | noMatchingAncestor => .noMatchingAncestor

/-- The image of a failure. -/
def Failure.embed : Failure → Failure Value
  | rejected reason => .rejected reason.embed
  | mismatch reason => .mismatch reason
  | unhashable kind => .unhashable kind
  | lostNode => .lostNode

/-- The image of a closing. -/
def Closing.embed (c : Closing) : Closing Value :=
  { rule := c.rule
    subgoals := c.subgoals.map Judgment.embed
    backLink := c.backLink.map .str
    instantiated := c.instantiated.map fun used => (used.1, used.2.embed Term.embed) }

/-- The image of what a tactic answers. -/
def Closing.embedResult : Except Failure Closing → Except (Failure Value) (Closing Value)
  | .error failure => .error failure.embed
  | .ok closing => .ok closing.embed

namespace Judgment

open Closing (embedResult)

variable (j : Judgment)

lemma byReflexivity_embed : j.embed.byReflexivity = embedResult j.byReflexivity := by
  have hequals : j.embed.goal.lhs.equals j.embed.goal.rhs = j.goal.lhs.equals j.goal.rhs :=
    j.goal.lhs.equals_embed j.goal.rhs
  rw [byReflexivity, hequals, byReflexivity]
  split_ifs <;> rfl

lemma byCongruence_embed : j.embed.byCongruence = embedResult j.byCongruence := by
  obtain ⟨hypotheses, lhs, rhs⟩ := j
  cases lhs <;> cases rhs <;> rfl

lemma byReduction_embed (side : Side) :
    j.embed.byReduction side = embedResult (j.byReduction side) := by
  have hstep : (j.embed.goal.side side).step? = ((j.goal.side side).step?).map Term.embed := by
    rw [← Term.step?_embed, ← Equation.side_embed]
    rfl
  rw [byReduction, hstep, byReduction]
  cases (j.goal.side side).step? with
  | none => rfl
  | some t =>
      refine congrArg Except.ok (congrArg (fun e => Closing.mk .reduction [e] none none) ?_)
      exact congrArg (Judgment.mk _) (j.goal.withSide_embed side t)

lemma replacing_embed (sel : Selection) (new : Term) :
    j.embed.replacing sel new.embed = embedResult (j.replacing sel new) := by
  have hreplace : j.embed.goal.replace sel new.embed =
      (j.goal.replace sel new).map Equation.embed := j.goal.replace_embed sel new
  rw [replacing, hreplace, replacing]
  cases j.goal.replace sel new <;> rfl

lemma select_embed (sel : Selection) :
    j.embed.goal.select sel = (j.goal.select sel).map Term.embed :=
  j.goal.select_embed sel

lemma byRewrite_embed (sel : Selection) (index : Int) :
    j.embed.byRewrite sel index = embedResult (j.byRewrite sel index) := by
  rw [byRewrite, hypothesis?_embed, select_embed, byRewrite]
  cases j.hypothesis? index with
  | none => rfl
  | some h =>
      cases j.goal.select sel with
      | error reason => rfl
      | ok selected =>
          have hequals : (h.embed : Equation Value).lhs.equals selected.embed =
              h.lhs.equals selected := h.lhs.equals_embed selected
          simp only [Option.map_some, Except.map, hequals]
          split_ifs
          · exact j.replacing_embed sel h.rhs
          · rfl

lemma byUnfolding_embed (sel : Selection) (table : Definitions) :
    j.embed.byUnfolding sel table.embed = embedResult (j.byUnfolding sel table) := by
  rw [byUnfolding, select_embed, byUnfolding]
  cases j.goal.select sel with
  | error reason => rfl
  | ok selected =>
      cases selected with
      | ref name =>
          have href : ((Term.ref name).embed : Term Value) = .ref (.str name) := rfl
          have hhashable : Naming.unhashable? (Value.str name) = none := rfl
          have hfind : table.embed.find? (Value.str name) = (table.find? name).map Term.embed :=
            Table.find?_embed Term.embed table name
          simp only [Except.map, href, hhashable, Naming.unhashable?_text, hfind]
          cases table.find? name with
          | none => rfl
          | some body => exact j.replacing_embed sel body
      | _ => rfl

lemma byCases_embed (sel : Selection) : j.embed.byCases sel = embedResult (j.byCases sel) := by
  rw [byCases, select_embed, unhashable?_embed, byCases]
  cases j.goal.select sel with
  | error reason => rfl
  | ok selected =>
      cases selected with
      | var x =>
          have hhashable : j.unhashable? = none := Naming.firstUnhashable?_text _
          have hvar : ((Term.var x).embed : Term Value) = .var (.str x) := rfl
          simp only [Except.map, hvar, hhashable, cases_embed]
          rfl
      | _ => rfl

lemma byTheorem_embed (thm : Theorem) :
    j.embed.byTheorem thm = embedResult (j.byTheorem thm) := by
  have hhashable : j.unhashable? = none := Naming.firstUnhashable?_text _
  have hmatch :
      (thm.sequent.goal.rename (j.renamingApart thm.sequent.toJudgment)).embed.matchAgainst
          j.embed.goal =
        ((thm.sequent.goal.rename (j.renamingApart thm.sequent.toJudgment)).matchAgainst
          j.goal).map (Table.embed Term.embed) :=
    Equation.matchAgainst_embed _ j.goal
  simp only [byTheorem, unhashable?_embed, hhashable, renamingApart_embed, hmatch,
    Equation.embed_text]
  cases (thm.sequent.goal.rename (j.renamingApart thm.sequent.toJudgment)).matchAgainst j.goal with
  | none => rfl
  | some bindings =>
      simp only [Option.map_some, Equation.subst_embed, Closing.embedResult, Closing.embed,
        List.map_map]
      rfl

end Judgment

/-- A tactic asks at the image of a node for the image of what it asks for, or fails alike. -/
lemma Tactic.closing_embed (p : Proof) (id : Text) (node : Node) (tactic : Tactic) :
    tactic.embed.closing p.embed (.str id) node.embed =
      Closing.embedResult (tactic.closing p id node) := by
  cases tactic with
  | reflexivity => exact node.sequent.byReflexivity_embed
  | symmetry => rfl
  | transitivity mid => rfl
  | congruence => exact node.sequent.byCongruence_embed
  | reduction side => exact node.sequent.byReduction_embed side
  | rewrite sel index => exact node.sequent.byRewrite_embed sel index
  | unfold sel table => exact node.sequent.byUnfolding_embed sel table
  | caseSplit sel => exact node.sequent.byCases_embed sel
  | useTheorem thm => exact node.sequent.byTheorem_embed thm
  | induction =>
      rw [embed, closing, Proof.byInduction, Proof.matchingAncestor?_embed, closing,
        Proof.byInduction]
      cases p.matchingAncestor? id <;> rfl

/-! ### Closing a node -/

lemma Supply.issueAll_embed (supply : Supply) (js : List Judgment) :
    supply.issueAll (js.map Judgment.embed) =
      ((supply.issueAll js).1.map Sequent.embed, (supply.issueAll js).2) := by
  induction js generalizing supply with
  | nil => rfl
  | cons j rest ih =>
      rw [List.map_cons, issueAll, issueAll]
      have hfirst : supply.issue j.embed = ((supply.issue j).1.embed, (supply.issue j).2) := rfl
      rw [hfirst, ih, List.map_cons]

namespace Proof

lemma newChildren_embed (id : Text) (i : Nat) (subgoals : List Sequent) :
    newChildren (Value.str id) i (subgoals.map Sequent.embed) =
      (newChildren id i subgoals).map Derivation.embed := by
  induction subgoals generalizing i with
  | nil => rfl
  | cons sequent rest ih =>
      rw [List.map_cons, newChildren, newChildren, List.map_cons, ih, Derivation.embed_node]
      rfl

lemma closeRoot_embed (rule : Rule) (link : Option Text) (added : List Derivation)
    (d : Derivation) :
    (closeRoot rule link added d).embed =
      closeRoot rule (link.map .str) (added.map Derivation.embed) d.embed := by
  obtain ⟨label, children⟩ := d
  rw [closeRoot, Derivation.embed_node, Derivation.embed_node, closeRoot, List.map_append]
  rfl

/-- Closing a node of an image gives the image. -/
lemma applyRule_embed (p : Proof) (id : Text) (rule : Rule) (subgoals : List Sequent)
    (link : Option Text) :
    p.embed.applyRule (.str id) rule (subgoals.map Sequent.embed) (link.map .str) =
      (p.applyRule id rule subgoals link).map embed := by
  rw [applyRule, find?_index_embed, applyRule]
  cases p.index.find? id with
  | none => rfl
  | some position =>
      have hat : p.embed.tree.at? position = (p.tree.at? position).map Derivation.embed :=
        p.tree.at?_embed position
      rw [Option.bind_some, Option.bind_some, hat]
      cases p.tree.at? position with
      | none => rfl
      | some part =>
          obtain ⟨label, children⟩ := part
          rw [Option.map_some, Option.bind_some, Option.bind_some, Derivation.embed_node]
          by_cases hopen : label.isOpen
          · have hopen' : label.embed.isOpen := hopen
            rw [Derivation.label, Derivation.label, if_pos hopen, if_pos hopen', Option.map_some,
              newChildren_embed, Derivation.children, Derivation.children, List.length_map]
            refine congrArg some (congrArg₂ mk ?_ ?_)
            · exact (Derivation.mapLabels_modify (closeRoot_embed rule link _) p.tree position).symm
            · rw [Derivation.entriesOfAll_embed]
              exact Table.insertAll_embed (fun q => q) p.index _
          · have hopen' : ¬ label.embed.isOpen := hopen
            rw [Derivation.label, Derivation.label, if_neg hopen, if_neg hopen', Option.map_none]

end Proof

/-! ### Whole calls -/

/-- The image of an event. -/
def Event.embed : Event → Event Value
  | rejected node reason => .rejected (.str node) reason.embed
  | instantiated name bindings => .instantiated name (bindings.embed Term.embed)
  | applied rule node subgoals => .applied rule (.str node) subgoals
  | ignored node => .ignored (.str node)
  | stoppedAtBound bound => .stoppedAtBound bound

namespace Session

/-- The image of a session. -/
def embed (s : Session) : Session Value := { proof := s.proof.embed, supply := s.supply }

/-- Closing a node directly gives the image. -/
lemma applyRule_embed (s : Session) (id : Text) (rule : Rule) (subgoals : List Sequent)
    (link : Option Text) :
    let attempt := s.applyRule id rule subgoals link
    s.embed.applyRule (.str id) rule (subgoals.map Sequent.embed) (link.map .str) =
      { session := attempt.session.embed
        outcome := attempt.outcome
        events := attempt.events.map Event.embed } := by
  intro attempt
  have hproof :
      s.embed.proof.applyRule (.str id) rule (subgoals.map Sequent.embed) (link.map .str) =
      (s.proof.applyRule id rule subgoals link).map Proof.embed :=
    s.proof.applyRule_embed id rule subgoals link
  simp only [attempt, applyRule, hproof, List.length_map]
  cases s.proof.applyRule id rule subgoals link <;> rfl

/-- Closing a node as a tactic asks gives the image. -/
lemma close_embed (s : Session) (node : Node) (closing : Closing) :
    let attempt := s.close node closing
    s.embed.close node.embed closing.embed =
      { session := attempt.session.embed
        outcome := attempt.outcome.mapError Failure.embed
        events := attempt.events.map Event.embed } := by
  intro attempt
  let issued := s.supply.issueAll closing.subgoals
  let closed := Session.applyRule ⟨s.proof, issued.2⟩ node.id closing.rule issued.1 closing.backLink
  have hissued : s.embed.supply.issueAll closing.embed.subgoals =
      (issued.1.map Sequent.embed, issued.2) := s.supply.issueAll_embed closing.subgoals
  have hclosed : Session.applyRule ⟨s.embed.proof, issued.2⟩ node.embed.id closing.embed.rule
      (issued.1.map Sequent.embed) closing.embed.backLink =
        { session := closed.session.embed
          outcome := closed.outcome
          events := closed.events.map Event.embed } :=
    applyRule_embed ⟨s.proof, issued.2⟩ node.id closing.rule issued.1 closing.backLink
  have hused : (closing.embed.instantiated.map fun used =>
      Event.instantiated used.1 used.2).toList =
        (closing.instantiated.map fun used =>
          Event.instantiated used.1 used.2).toList.map Event.embed := by
    rw [Closing.embed]
    cases closing.instantiated <;> rfl
  simp only [attempt, close, hissued, hclosed, hused, List.map_append]
  congr 1
  cases closed.outcome <;> rfl

/-- **Calls on images**: a call of a tactic on the image of a session leads to the image of the
session to which the call leads, with the same outcome and the same events. -/
theorem run_embed (s : Session) (id : Text) (tactic : Tactic) :
    let attempt := s.run id tactic
    s.embed.run (.str id) tactic.embed =
      { session := attempt.session.embed
        outcome := attempt.outcome.mapError Failure.embed
        events := attempt.events.map Event.embed } := by
  intro attempt
  have hopen : s.embed.proof.openNode? (.str id) = (s.proof.openNode? id).map Node.embed :=
    s.proof.openNode?_embed id
  simp only [attempt, run, hopen]
  cases s.proof.openNode? id with
  | none => rfl
  | some node =>
      have hclosing : tactic.embed.closing s.embed.proof (.str id) node.embed =
          Closing.embedResult (tactic.closing s.proof id node) :=
        tactic.closing_embed s.proof id node
      simp only [Option.map_some, hclosing]
      cases tactic.closing s.proof id node with
      | error failure => cases failure <;> rfl
      | ok closing => exact s.close_embed node closing

end Session

end TreeCalculus
