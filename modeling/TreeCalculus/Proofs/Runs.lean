import Mathlib.Logic.Relation
import TreeCalculus.Proofs.Closings
import TreeCalculus.Proofs.Derivations
import TreeCalculus.Proofs.Tables
import TreeCalculus.Tactic.Session

/-!
Runs of tactics.

A run is a sequence of calls of tactics at nodes, successful or not; a predicate says which
tactics may be called at which judgments. Between two calls any number of sequents may be named,
so the supply of names is arbitrary at each call. Every call leaves the proof alone or closes one
open node as the tactic asks.

* `Proof.Calls`, `Proof.Reaches`: one call, and runs.
* `Session.runAll`, `Session.reaches_runAll`: scripts of calls.
* `Proof.Indexed`: the index leads to nodes with the id that was looked up; all reachable proofs
  have this property.
* `Proof.exists_at?_close_of_ne`, `Proof.at?_close_concat`: the old nodes and the new ones after
  one node is closed.
* `Session.run_cases`, `Session.outcome_run_of_open`, `Proof.Calls.elim`: what one call does.
* `Proof.Leaves`, `Session.run_leaves`: the new nodes below the one for which a successful call
  was made.
* `Proof.Reaches.locally`: a condition on a node and the sequents of its children holds throughout
  every reachable proof if it holds of new open nodes and of the nodes that tactics close.
* `Proof.Reaches.backLink_eq_none`: without induction there are no links.
-/

namespace TreeCalculus

namespace Proof

open Relation

/-- One call of an allowed tactic at some node, whatever comes of it. -/
inductive Calls (allowed : Judgment → Tactic → Prop) (p : Proof) : Proof → Prop where
  | call (supply : Supply) (id : Text) (tactic : Tactic)
      (h : ∀ node, p.openNode? id = some node → allowed node.sequent.toJudgment tactic) :
      Calls allowed p (Session.run ⟨p, supply⟩ id tactic).session.proof

/-- A run: any number of calls of allowed tactics. -/
def Reaches (allowed : Judgment → Tactic → Prop) : Proof → Proof → Prop :=
  ReflTransGen (Calls allowed)

end Proof

/-- Run a script: calls one after the other, whatever comes of them. -/
def Session.runAll (s : Session) (script : List (Text × Tactic)) : Session :=
  script.foldl (fun s call => (s.run call.1 call.2).session) s

/-- A script of allowed tactics is a run. -/
lemma Session.reaches_runAll {allowed : Judgment → Tactic → Prop} (s : Session)
    (script : List (Text × Tactic)) (h : ∀ call ∈ script, ∀ j, allowed j call.2) :
    Proof.Reaches allowed s.proof (s.runAll script).proof := by
  induction script generalizing s with
  | nil => exact .refl
  | cons call rest ih =>
      have hcall : Proof.Calls allowed s.proof (s.run call.1 call.2).session.proof :=
        .call s.supply call.1 call.2 fun node _ => h call List.mem_cons_self _
      exact .head hcall (ih _ fun c hc => h c (List.mem_cons_of_mem call hc))

namespace Proof

/-! ### Closing a node -/

/-- The index leads to nodes with the id that was looked up. -/
def Indexed (p : Proof) : Prop :=
  ∀ id position, p.index.find? id = some position →
    ∃ d, p.tree.at? position = some d ∧ d.label.id = id

lemma indexed_start (sequent : Sequent) : (start sequent).Indexed := by
  intro id position h
  have hindex : (start sequent).index.find? id = if id = rootId then some [] else none :=
    Table.lookup_cons ..
  rw [hindex] at h
  split_ifs at h with hid
  cases h
  exact ⟨_, Derivation.at?_nil _, hid.symm⟩

/-- Closing succeeds at the open nodes that the index knows, and changes the tree there. -/
lemma applyRule_eq_some {p q : Proof} {id : Text} {rule : Rule} {subgoals : List Sequent}
    {link : Option Text} :
    p.applyRule id rule subgoals link = some q ↔
      ∃ position part, p.index.find? id = some position ∧ p.tree.at? position = some part ∧
        part.label.isOpen ∧
        q = { tree := p.tree.modify (closeRoot rule link (newChildren id 0 subgoals)) position
              index := p.index.insertAll (Derivation.entriesOfAll position part.children.length
                (newChildren id 0 subgoals)) } := by
  simp only [applyRule, Option.bind_eq_some_iff, Option.ite_none_right_eq_some, Option.some.injEq]
  constructor
  · rintro ⟨position, hposition, part, hpart, hopen, rfl⟩
    exact ⟨position, part, hposition, hpart, hopen, rfl⟩
  · rintro ⟨position, part, hposition, hpart, hopen, rfl⟩
    exact ⟨position, hposition, part, hpart, hopen, rfl⟩

/-- New nodes are open, without a link, and hold the subgoals in order. -/
lemma exists_of_mem_newChildren {id : Text} {i : Nat} {subgoals : List Sequent} {c : Derivation}
    (h : c ∈ newChildren id i subgoals) :
    ∃ label, c = .node label [] ∧ label.isOpen ∧ label.backLink = none := by
  induction subgoals generalizing i with
  | nil => exact absurd h (by simp [newChildren])
  | cons sequent rest ih =>
      rw [newChildren] at h
      rcases List.mem_cons.mp h with rfl | h
      · exact ⟨_, rfl, rfl, rfl⟩
      · exact ih h

lemma map_sequent_newChildren (id : Text) (i : Nat) (subgoals : List Sequent) :
    ((newChildren id i subgoals).map fun c => c.label.sequent) = subgoals := by
  induction subgoals generalizing i with
  | nil => rfl
  | cons sequent rest ih =>
      rw [newChildren, List.map_cons, ih]
      rfl

/-- The entries of new children lead to them. -/
lemma exists_of_mem_entries_newChildren {id x : Text} {i k : Nat} {subgoals : List Sequent}
    {position q : Position}
    (h : (x, q) ∈ Derivation.entriesOfAll position i (newChildren id k subgoals)) :
    ∃ n c, (newChildren id k subgoals)[n]? = some c ∧ c.label.id = x ∧
      q = position ++ [i + n] := by
  induction subgoals generalizing i k with
  | nil => exact absurd h (by simp [newChildren, Derivation.entriesOfAll])
  | cons sequent rest ih =>
      rw [newChildren, Derivation.entriesOfAll, Derivation.entries, Derivation.entriesOfAll] at h
      rcases List.mem_cons.mp h with h | h
      · cases h
        exact ⟨0, _, rfl, rfl, rfl⟩
      · obtain ⟨n, c, hc, hid, rfl⟩ := ih h
        refine ⟨n + 1, c, ?_, hid, ?_⟩
        · rw [newChildren, List.getElem?_cons_succ, hc]
        · rw [Nat.add_assoc, Nat.add_comm 1 n]

lemma id_closeRoot (rule : Rule) (link : Option Text) (added : List Derivation) (e : Derivation) :
    (closeRoot rule link added e).label.id = e.label.id := by
  obtain ⟨label, children⟩ := e
  rfl

/-- Closing a node leaves every other node with its label and its children. -/
lemma exists_at?_close_of_ne {tree part d : Derivation} {position q : Position}
    (hpart : tree.at? position = some part) (hd : tree.at? q = some d) (hne : q ≠ position)
    (rule : Rule) (link : Option Text) (added : List Derivation) :
    ∃ d', (tree.modify (closeRoot rule link added) position).at? q = some d' ∧
      d'.label = d.label ∧ d'.childIds = d.childIds := by
  by_cases hbelow : position <+: q
  · -- below the closed node the new children come behind the old ones
    obtain ⟨r, rfl⟩ := hbelow
    obtain ⟨label, children⟩ := part
    cases r with
    | nil => exact absurd (List.append_nil position) hne
    | cons i r =>
        rw [Derivation.at?_append, hpart, Option.bind_some] at hd
        obtain ⟨c, hc, hr⟩ := Derivation.at?_cons_eq_some.mp hd
        refine ⟨d, ?_, rfl, rfl⟩
        rw [Derivation.at?_modify_append, hpart, Option.bind_some]
        refine Derivation.at?_cons_eq_some.mpr ⟨c, ?_, hr⟩
        rw [List.getElem?_append_left (List.getElem?_eq_some_iff.mp hc).1, hc]
  · have houtline := Derivation.outline_at?_modify (id_closeRoot rule link added) (d := tree) hbelow
    rw [hd, Option.map_some, Option.map_eq_some_iff] at houtline
    obtain ⟨d', hd', heq⟩ := houtline
    obtain ⟨hlabel, hids⟩ := Prod.mk.inj heq
    exact ⟨d', hd', hlabel, hids⟩

/-- Closing a node leaves every node in its place, with its id. -/
lemma exists_at?_close {tree part d : Derivation} {position q : Position}
    (hpart : tree.at? position = some part) (hd : tree.at? q = some d) (rule : Rule)
    (link : Option Text) (added : List Derivation) :
    ∃ d', (tree.modify (closeRoot rule link added) position).at? q = some d' ∧
      d'.label.id = d.label.id := by
  by_cases hq : q = position
  · subst hq
    obtain rfl : part = d := Option.some.inj (hpart.symm.trans hd)
    refine ⟨closeRoot rule link added part, ?_, id_closeRoot rule link added part⟩
    rw [Derivation.at?_modify_self, hpart, Option.map_some]
  · obtain ⟨d', hd', hlabel, -⟩ := exists_at?_close_of_ne hpart hd hq rule link added
    exact ⟨d', hd', congrArg Node.id hlabel⟩

/-- The new nodes stand right below the closed one, behind the children that it had. -/
lemma at?_close_concat {tree part : Derivation} {position : Position}
    (hpart : tree.at? position = some part) (rule : Rule) (link : Option Text)
    (added : List Derivation) (n : Nat) :
    (tree.modify (closeRoot rule link added) position).at?
      (position ++ [part.children.length + n]) = added[n]? := by
  obtain ⟨label, children⟩ := part
  rw [Derivation.at?_modify_append, hpart, Option.bind_some, closeRoot, Derivation.at?_node_cons,
    Derivation.children, List.getElem?_append_right (Nat.le_add_right ..), Nat.add_sub_cancel_left]
  cases added[n]? with
  | none => rfl
  | some c => exact Derivation.at?_nil c

/-- Closing a node keeps the index true: the new entries lead to the new nodes, and the nodes that
were there stay in their places. -/
lemma Indexed.applyRule {p q : Proof} {id : Text} {rule : Rule} {subgoals : List Sequent}
    {link : Option Text} (hp : p.Indexed) (h : p.applyRule id rule subgoals link = some q) :
    q.Indexed := by
  obtain ⟨position, part, -, hpart, -, rfl⟩ := applyRule_eq_some.mp h
  intro x place hplace
  obtain hnew | hold := Table.find?_insertAll hplace
  · obtain ⟨n, c, hc, hid, rfl⟩ := exists_of_mem_entries_newChildren hnew
    exact ⟨c, (at?_close_concat hpart rule link _ n).trans hc, hid⟩
  · obtain ⟨d, hd, hid⟩ := hp x place hold
    obtain ⟨d', hd', hid'⟩ := exists_at?_close hpart hd rule link (newChildren id 0 subgoals)
    exact ⟨d', hd', hid'.trans hid⟩

/-- An open node that the index gives has the id that was looked up. -/
lemma openNode?_eq_some {p : Proof} {id : Text} {node : Node} (hp : p.Indexed)
    (h : p.openNode? id = some node) :
    ∃ position part, p.index.find? id = some position ∧ p.tree.at? position = some part ∧
      part.label = node ∧ node.isOpen ∧ node.id = id := by
  rw [openNode?, Option.filter_eq_some_iff, node?, Option.map_eq_some_iff] at h
  obtain ⟨⟨part, hfind, rfl⟩, hopen⟩ := h
  obtain ⟨position, hposition, hpart⟩ := Option.bind_eq_some_iff.mp hfind
  obtain ⟨d, hd, hid⟩ := hp id position hposition
  obtain rfl : part = d := Option.some.inj (hpart.symm.trans hd)
  exact ⟨position, part, hposition, hpart, rfl, hopen, hid⟩

/-- An open part to which the index leads is found as an open node. -/
lemma openNode?_of_at? {p : Proof} {id : Text} {position : Position} {part : Derivation}
    (hposition : p.index.find? id = some position) (hpart : p.tree.at? position = some part)
    (hopen : part.label.isOpen) : p.openNode? id = some part.label := by
  rw [openNode?, node?, find?, hposition, Option.bind_some, hpart, Option.map_some,
    Option.filter_some, if_pos hopen]

end Proof

/-! ### Calls -/

/-- Naming judgments does not change them. -/
lemma Supply.map_toJudgment_issueAll (supply : Supply) (js : List Judgment) :
    (supply.issueAll js).1.map Sequent.toJudgment = js := by
  induction js generalizing supply with
  | nil => rfl
  | cons j rest ih => rw [issueAll, List.map_cons, ih]; rfl

/-- A call leaves the proof alone, or closes the node as the tactic asks. -/
lemma Session.proof_run (s : Session) (id : Text) (tactic : Tactic) :
    (s.run id tactic).session.proof = s.proof ∨
      ∃ node closing subgoals, s.proof.openNode? id = some node ∧
        tactic.closing s.proof id node = .ok closing ∧
        subgoals.map Sequent.toJudgment = closing.subgoals ∧
        s.proof.applyRule node.id closing.rule subgoals closing.backLink =
          some (s.run id tactic).session.proof := by
  cases hnode : s.proof.openNode? id with
  | none => exact .inl (by simp only [run, hnode])
  | some node =>
      cases hclosing : tactic.closing s.proof id node with
      | error failure => exact .inl (by simp only [run, hnode, hclosing])
      | ok closing =>
          cases happly : s.proof.applyRule node.id closing.rule
              (s.supply.issueAll closing.subgoals).1 closing.backLink with
          | none => exact .inl (by simp only [run, hnode, hclosing, close, applyRule, happly])
          | some p =>
              refine .inr ⟨node, closing, _, rfl, hclosing,
                Supply.map_toJudgment_issueAll s.supply closing.subgoals, ?_⟩
              simp only [run, hnode, hclosing, close, applyRule, happly]

/-- The session in which a part of the tree is closed as a tactic asks. -/
def Session.closedAt (s : Session) (position : Position) (part : Derivation) (closing : Closing) :
    Session :=
  let issued := s.supply.issueAll closing.subgoals
  let added := Proof.newChildren part.label.id 0 issued.1
  { proof :=
      { tree := s.proof.tree.modify (Proof.closeRoot closing.rule closing.backLink added) position
        index := s.proof.index.insertAll
          (Derivation.entriesOfAll position part.children.length added) }
    supply := issued.2 }

/-- A call at a node that is unknown or closed is rejected. -/
lemma Session.run_of_not_open {s : Session} {id : Text} (hnode : s.proof.openNode? id = none)
    (tactic : Tactic) :
    (s.run id tactic).session = s ∧
      (s.run id tactic).outcome = .error (.rejected (.notOpen id)) := by
  simp only [run, hnode, and_self]

/-- A call whose tactic fails at the node comes to nothing. -/
lemma Session.run_of_error {s : Session} {id : Text} {node : Node} {tactic : Tactic}
    {failure : Failure} (hnode : s.proof.openNode? id = some node)
    (hclosing : tactic.closing s.proof id node = .error failure) :
    (s.run id tactic).session = s ∧ (s.run id tactic).outcome = .error failure := by
  simp only [run, hnode, hclosing, and_self]

/-- A call whose tactic asks for a closing succeeds: the node is found again by its own id. -/
lemma Session.run_of_ok {s : Session} (hs : s.proof.Indexed) {id : Text} {position : Position}
    {part : Derivation} {tactic : Tactic} {closing : Closing}
    (hposition : s.proof.index.find? id = some position)
    (hpart : s.proof.tree.at? position = some part) (hopen : part.label.isOpen)
    (hclosing : tactic.closing s.proof id part.label = .ok closing) :
    (s.run id tactic).session = s.closedAt position part closing ∧
      (s.run id tactic).outcome = .ok () := by
  obtain ⟨d, hd, hid⟩ := hs id position hposition
  obtain rfl : part = d := Option.some.inj (hpart.symm.trans hd)
  subst hid
  have hnode := Proof.openNode?_of_at? hposition hpart hopen
  have happly : s.proof.applyRule part.label.id closing.rule
      (s.supply.issueAll closing.subgoals).1 closing.backLink =
        some (s.closedAt position part closing).proof :=
    Proof.applyRule_eq_some.mpr ⟨position, part, hposition, hpart, hopen, rfl⟩
  simp only [run, hnode, hclosing, close, applyRule, happly, if_true, and_true]
  rfl

/-- **A call read backwards**: the tactic asks for a closing and gets it, or it fails at the node,
or there is no open node; in the last two cases nothing changes. -/
theorem Session.run_cases {s : Session} (hs : s.proof.Indexed) (id : Text) (tactic : Tactic) :
    (∃ position part closing, s.proof.index.find? id = some position ∧
      s.proof.tree.at? position = some part ∧ part.label.isOpen ∧
      tactic.closing s.proof id part.label = .ok closing ∧
      (s.run id tactic).session = s.closedAt position part closing ∧
      (s.run id tactic).outcome = .ok ()) ∨
    (∃ node failure, s.proof.openNode? id = some node ∧
      tactic.closing s.proof id node = .error failure ∧
      (s.run id tactic).session = s ∧ (s.run id tactic).outcome = .error failure) ∨
    (s.proof.openNode? id = none ∧ (s.run id tactic).session = s ∧
      (s.run id tactic).outcome = .error (.rejected (.notOpen id))) := by
  cases hnode : s.proof.openNode? id with
  | none => exact .inr (.inr ⟨rfl, run_of_not_open hnode tactic⟩)
  | some node =>
      cases hclosing : tactic.closing s.proof id node with
      | error failure =>
          exact .inr (.inl ⟨node, failure, rfl, hclosing, run_of_error hnode hclosing⟩)
      | ok closing =>
          obtain ⟨position, part, hposition, hpart, rfl, hopen, -⟩ :=
            Proof.openNode?_eq_some hs hnode
          exact .inl ⟨position, part, closing, hposition, hpart, hopen, hclosing,
            run_of_ok hs hposition hpart hopen hclosing⟩

/-- A call at an open node has the outcome of its tactic. -/
lemma Session.outcome_run_of_open {s : Session} (hs : s.proof.Indexed) {id : Text} {node : Node}
    (hnode : s.proof.openNode? id = some node) (tactic : Tactic) :
    (s.run id tactic).outcome = (tactic.closing s.proof id node).map fun _ => () := by
  cases hclosing : tactic.closing s.proof id node with
  | error failure => exact (run_of_error hnode hclosing).2
  | ok closing =>
      obtain ⟨position, part, hposition, hpart, rfl, hopen, -⟩ := Proof.openNode?_eq_some hs hnode
      exact (run_of_ok hs hposition hpart hopen hclosing).2

/-- A call at an open node succeeds iff its tactic asks for a closing. -/
lemma Session.outcome_run_eq_ok {s : Session} (hs : s.proof.Indexed) {id : Text} {node : Node}
    (hnode : s.proof.openNode? id = some node) {tactic : Tactic} :
    (s.run id tactic).outcome = .ok () ↔
      ∃ closing, tactic.closing s.proof id node = .ok closing := by
  rw [outcome_run_of_open hs hnode]
  cases tactic.closing s.proof id node <;> simp [Except.map]

/-- In `p'` the node that `p` gives for an id is closed by a rule, without a link, and new open
nodes for the subgoals stand behind the children that it had. -/
def Proof.Leaves (p p' : Proof) (id : Text) (rule : Rule) (subgoals : List Judgment) : Prop :=
  ∃ position node children added, p.index.find? id = some position ∧
    p.tree.at? position = some (.node node children) ∧
    p'.tree.at? position =
      some (.node { node with rule := some rule, backLink := none } (children ++ added)) ∧
    (∀ d ∈ added, d.label.isOpen ∧ d.children = []) ∧
    added.map (fun d => d.label.sequent.toJudgment) = subgoals

/-- A call whose tactic asks for a closing without a link succeeds, and leaves the subgoals. -/
lemma Session.run_leaves {s : Session} (hs : s.proof.Indexed) {id : Text} {node : Node}
    {tactic : Tactic} {closing : Closing} (hnode : s.proof.openNode? id = some node)
    (hclosing : tactic.closing s.proof id node = .ok closing) (hlink : closing.backLink = none) :
    (s.run id tactic).outcome = .ok () ∧
      s.proof.Leaves (s.run id tactic).session.proof id closing.rule closing.subgoals := by
  obtain ⟨position, ⟨label, children⟩, hposition, hpart, rfl, hopen, -⟩ :=
    Proof.openNode?_eq_some hs hnode
  obtain ⟨hsession, hok⟩ := run_of_ok hs hposition hpart hopen hclosing
  refine ⟨hok, position, label, children,
    Proof.newChildren label.id 0 (s.supply.issueAll closing.subgoals).1, hposition, hpart, ?_,
    fun d hd => ?_, ?_⟩
  · rw [hsession, ← hlink]
    exact (Derivation.at?_modify_self _ _ _).trans (congrArg (Option.map _) hpart)
  · obtain ⟨label', rfl, hlabel', -⟩ := Proof.exists_of_mem_newChildren hd
    exact ⟨hlabel', rfl⟩
  · generalize hissued : (s.supply.issueAll closing.subgoals).1 = issued
    calc (Proof.newChildren label.id 0 issued).map (fun d => d.label.sequent.toJudgment)
        = ((Proof.newChildren label.id 0 issued).map fun d => d.label.sequent).map
            Sequent.toJudgment := (List.map_map ..).symm
      _ = issued.map Sequent.toJudgment := by rw [Proof.map_sequent_newChildren]
      _ = closing.subgoals := by rw [← hissued, Supply.map_toJudgment_issueAll]

namespace Proof

open Relation

variable {allowed : Judgment → Tactic → Prop}

/-- **What one call does**: it leaves the proof alone, or an allowed tactic closes an open part of
the tree as it asks. -/
theorem Calls.elim {p q : Proof} (hp : p.Indexed) (h : Calls allowed p q) :
    q.Indexed ∧ (q = p ∨
      ∃ position part tactic closing subgoals, p.tree.at? position = some part ∧
        part.label.isOpen ∧ allowed part.label.sequent.toJudgment tactic ∧
        tactic.closing p part.label.id part.label = .ok closing ∧
        subgoals.map Sequent.toJudgment = closing.subgoals ∧
        q.tree = p.tree.modify (closeRoot closing.rule closing.backLink
          (newChildren part.label.id 0 subgoals)) position) := by
  obtain ⟨supply, id, tactic, hallowed⟩ := h
  obtain heq | ⟨node, closing, subgoals, hnode, hclosing, hsubgoals, happly⟩ :=
    Session.proof_run ⟨p, supply⟩ id tactic
  · exact ⟨heq ▸ hp, .inl heq⟩
  · refine ⟨hp.applyRule happly, .inr ?_⟩
    obtain ⟨position, part, hposition, hpart, rfl, hopen, hid⟩ := openNode?_eq_some hp hnode
    obtain ⟨position', part', hposition', hpart', -, hq⟩ := applyRule_eq_some.mp happly
    -- the tactic looked the node up under `id`, and it is closed under its own id: the same place
    subst hid
    obtain rfl : position = position' := Option.some.inj (hposition.symm.trans hposition')
    exact ⟨position, part, tactic, closing, subgoals, hpart, hopen, hallowed _ hnode, hclosing,
      hsubgoals, congrArg Proof.tree hq⟩

/-- **Conditions along runs**: if a condition on a node and the sequents of its children holds of
open nodes without children, and of every node that an allowed tactic has closed, then it holds
throughout every proof that a run reaches; and the sequent at the root stays. -/
theorem Reaches.locally {P : Node → List Sequent → Prop}
    (hopen : ∀ label : Node, label.isOpen → label.backLink = none → P label [])
    (hclose : ∀ (p : Proof) (label : Node) tactic closing (before subgoals : List Sequent),
      allowed label.sequent.toJudgment tactic → tactic.closing p label.id label = .ok closing →
      subgoals.map Sequent.toJudgment = closing.subgoals →
      P { label with rule := some closing.rule, backLink := closing.backLink }
        (before ++ subgoals))
    {sequent : Sequent} {p : Proof} (h : Reaches allowed (start sequent) p) :
    p.tree.Locally P ∧ p.tree.label.sequent = sequent := by
  have hnew : ∀ label : Node, label.isOpen → label.backLink = none →
      (Derivation.node label []).Locally P :=
    fun label hlabel hlink => .node (hopen label hlabel hlink) (by simp)
  suffices hinv : p.Indexed ∧ p.tree.Locally P ∧ p.tree.label.sequent = sequent from hinv.2
  induction h with
  | refl => exact ⟨indexed_start sequent, hnew _ rfl rfl, rfl⟩
  | tail _ hcall ih =>
      obtain ⟨hindexed, hlocally, hroot⟩ := ih
      obtain ⟨hindexed', rfl | ⟨position, part, tactic, closing, subgoals, hpart, -, hallowed,
        hclosing, hsubgoals, htree⟩⟩ := hcall.elim hindexed
      · exact ⟨hindexed', hlocally, hroot⟩
      · have hpart' := hlocally.at? hpart
        obtain @⟨label, children, -, hchildren⟩ := hpart'
        have hclosed : (closeRoot closing.rule closing.backLink
            (newChildren label.id 0 subgoals) (.node label children)).Locally P := by
          refine .node ?_ fun c hc => ?_
          · rw [List.map_append, map_sequent_newChildren]
            exact hclose _ label tactic closing _ subgoals hallowed hclosing hsubgoals
          · rcases List.mem_append.mp hc with hc | hc
            · exact hchildren c hc
            · obtain ⟨label', rfl, hlabel', hlink⟩ := exists_of_mem_newChildren hc
              exact hnew label' hlabel' hlink
        obtain ⟨hlocally', hroot'⟩ := hlocally.modify hpart hclosed rfl
        exact ⟨hindexed', htree ▸ hlocally', by rw [htree]; exact hroot'.trans hroot⟩

/-- A run without induction makes no links. -/
lemma Reaches.backLink_eq_none (hallowed : ∀ j tactic, allowed j tactic → tactic ≠ .induction)
    {sequent : Sequent} {p : Proof} (h : Reaches allowed (start sequent) p) :
    ∀ n ∈ p.tree.nodes, n.backLink = none := by
  have hlocally := h.locally (P := fun label _ => label.backLink = none)
    (fun _ _ hlabel => hlabel)
    fun _ _ _ _ _ _ hcall hclosing _ => Tactic.backLink_eq_none hclosing (hallowed _ _ hcall)
  exact fun n hn => hlocally.1.of_mem_nodes hn

end Proof

end TreeCalculus
