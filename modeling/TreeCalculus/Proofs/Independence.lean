import TreeCalculus.Proofs.Effects

/-!
Work on different goals is independent.

What a tactic asks for depends on the judgment of its node, and for induction on the nodes above
it. In a numbered proof an open node has no children, so closing one does not touch the nodes
above another, and the two closings are changes in separate places of the tree. Only the names of
the new sequents tell in which order the closings came.

* `Derivation.forgetNames`: the tree in which the sequents of new nodes have lost their names.
* `Tactic.closing_congr`: what a tactic asks for depends on the nearest ancestor with the same
  goal.
* `Proof.OpenLeaf`, `Proof.OpenLeaf.forgetNames_tree_run`: the effect of a call on a tree without
  the new names.
* `Proof.run_after_run`: what two calls at different open nodes do.
* `Proof.runs_commute_of_edits`: two calls at different open nodes can be made in either order.
-/

namespace TreeCalculus

/-! ### Trees without the names of their sequents -/

namespace Derivation

lemma modify_id (d : Derivation) (q : Position) : d.modify id q = d := by
  induction q generalizing d with
  | nil => rw [modify_nil, id]
  | cons i q ih =>
      obtain ⟨label, children⟩ := d
      rw [modify_node_cons, funext ih, ← Function.id_def, List.modify_id]

end Derivation

/-! ### Forgetting names -/

/-- The sequent of a node loses its name, unless the id of the node is known. -/
def Node.forgetName (known : List Text) (n : Node) : Node :=
  if n.id ∈ known then n else { n with sequent := { n.sequent with id := "" } }

/-- The tree in which the sequents of all nodes lose their names, unless their ids are known. -/
def Derivation.forgetNames (known : List Text) (d : Derivation) : Derivation :=
  d.mapLabels (Node.forgetName known)

lemma Node.id_forgetName (known : List Text) (n : Node) : (n.forgetName known).id = n.id := by
  rw [forgetName]
  split_ifs <;> rfl

namespace Proof

variable {known : List Text}

lemma forgetNames_closeRoot (rule : Rule) (link : Option Text) (added : List Derivation)
    (e : Derivation) :
    (closeRoot rule link added e).forgetNames known =
      closeRoot rule link (added.map (Derivation.forgetNames known)) (e.forgetNames known) := by
  obtain ⟨label, children⟩ := e
  have hlabel : Node.forgetName known { label with rule := some rule, backLink := link } =
      { Node.forgetName known label with rule := some rule, backLink := link } := by
    rw [Node.forgetName, Node.forgetName]
    split_ifs <;> rfl
  rw [Derivation.forgetNames, Derivation.forgetNames, closeRoot, Derivation.mapLabels_node,
    Derivation.mapLabels_node, closeRoot, List.map_append, hlabel]
  rfl

/-- New nodes lose the names of their sequents. -/
lemma forgetNames_newChildren {id : Text} (hknown : ∀ i, childId id i ∉ known) (supply : Supply)
    (js : List Judgment) :
    (newChildren id 0 (supply.issueAll js).1).map (Derivation.forgetNames known) =
      newChildren id 0 (js.map fun j => { toJudgment := j, id := "" }) := by
  refine List.ext_getElem? fun n => ?_
  rw [List.getElem?_map, getElem?_newChildren, getElem?_newChildren, Supply.issueAll_fst,
    List.getElem?_mapIdx, List.getElem?_map, Option.map_map, Option.map_map, Option.map_map]
  refine congrFun (congrArg Option.map (funext fun j => ?_)) js[n]?
  simp only [Function.comp_apply, Derivation.forgetNames, Derivation.mapLabels_node, List.map_nil,
    Node.forgetName, Nat.zero_add, if_neg (hknown n)]

end Proof

/-! ### What a tactic looks at -/

/-- What a tactic asks for depends on the node and on the nearest ancestor with the same goal. -/
lemma Tactic.closing_congr {p p' : Proof} {id : Text} (node : Node) (tactic : Tactic)
    (h : p'.matchingAncestor? id = p.matchingAncestor? id) :
    tactic.closing p' id node = tactic.closing p id node := by
  cases tactic with
  | induction => rw [closing, closing, Proof.byInduction, Proof.byInduction, h]
  | _ => rfl

/-- The judgments that are left to prove; none if the tactic fails. -/
def Closing.judgments : Except Failure Closing → List Judgment
  | .error _ => []
  | .ok closing => closing.subgoals

/-- The change for which a tactic asks, with blanks for the names of sequents; a tactic that fails
asks for none. -/
def Closing.change (id : Text) : Except Failure Closing → Derivation → Derivation
  | .error _ => fun d => d
  | .ok closing => Proof.closeRoot closing.rule closing.backLink
      (Proof.newChildren id 0 (closing.subgoals.map fun j => { toJudgment := j, id := "" }))

namespace Proof

open Relation

/-- An open node without children, to which the index leads. -/
structure OpenLeaf (p : Proof) (q : Position) (node : Node) : Prop where
  at?_eq : p.tree.at? q = some (.node node [])
  isOpen : node.isOpen
  find?_eq : p.index.find? node.id = some q

variable {p : Proof} {q q' : Position} {node node' : Node}

/-- In a numbered proof the open nodes are open leaves. -/
lemma Coherent.exists_openLeaf (hp : p.Coherent) (hnumbered : p.tree.Numbered)
    (hnode : node ∈ p.openNodes) : ∃ q, p.OpenLeaf q node := by
  obtain ⟨hmem, hopen⟩ := List.mem_filter.mp hnode
  obtain ⟨q, d, hd, rfl⟩ := Derivation.mem_nodes.mp hmem
  have hleaf := hnumbered.children_eq_nil hd hopen
  have hfind := (hp.find?_index hnumbered.distinctIds).mpr ⟨d, hd, rfl⟩
  obtain ⟨label, children⟩ := d
  obtain rfl : children = [] := hleaf
  exact ⟨q, hd, hopen, hfind⟩

namespace OpenLeaf

/-- Nothing stands below an open leaf. -/
lemma not_prefix (hnode : p.OpenLeaf q node) (hnode' : p.OpenLeaf q' node') (hne : q ≠ q') :
    ¬ q <+: q' := by
  rintro ⟨r, rfl⟩
  cases r with
  | nil => exact hne (List.append_nil q).symm
  | cons i r =>
      have hat := hnode'.at?_eq
      rw [Derivation.at?_append, hnode.at?_eq, Option.bind_some, Derivation.at?_node_cons] at hat
      cases hat

/-! ### A call at an open leaf -/

section

variable (hnode : p.OpenLeaf q node) (supply : Supply) {tactic : Tactic}

include hnode

lemma run_error {failure : Failure} (hclosing : tactic.closing p node.id node = .error failure) :
    (Session.run ⟨p, supply⟩ node.id tactic).session = ⟨p, supply⟩ ∧
      (Session.run ⟨p, supply⟩ node.id tactic).outcome = .error failure :=
  Session.run_of_error (openNode?_of_at? hnode.find?_eq hnode.at?_eq hnode.isOpen) hclosing

lemma run_ok (hp : p.Indexed) {closing : Closing}
    (hclosing : tactic.closing p node.id node = .ok closing) :
    (Session.run ⟨p, supply⟩ node.id tactic).session =
        Session.closedAt ⟨p, supply⟩ q (.node node []) closing ∧
      (Session.run ⟨p, supply⟩ node.id tactic).outcome = .ok () :=
  Session.run_of_ok (s := ⟨p, supply⟩) hp hnode.find?_eq hnode.at?_eq hnode.isOpen hclosing

end

section

variable (hp : p.Indexed) (hnode : p.OpenLeaf q node) (supply : Supply) (tactic : Tactic)

include hp hnode

/-- A call succeeds iff the tactic asks for a closing, and else fails as the tactic does. -/
lemma outcome_run : (Session.run ⟨p, supply⟩ node.id tactic).outcome =
    (tactic.closing p node.id node).map fun _ => () :=
  Session.outcome_run_of_open (s := ⟨p, supply⟩) hp
    (openNode?_of_at? hnode.find?_eq hnode.at?_eq hnode.isOpen) tactic

lemma next_supply_run : (Session.run ⟨p, supply⟩ node.id tactic).session.supply.next =
    supply.next + (Closing.judgments (tactic.closing p node.id node)).length := by
  cases hclosing : tactic.closing p node.id node with
  | error failure =>
      rw [(hnode.run_error supply hclosing).1]
      rfl
  | ok closing =>
      rw [(hnode.run_ok supply hp hclosing).1]
      exact Supply.next_issueAll supply closing.subgoals

/-- Up to the names of new sequents, a call makes the change for which the tactic asks. -/
lemma forgetNames_tree_run {known : List Text} (hknown : ∀ i, childId node.id i ∉ known) :
    (Session.run ⟨p, supply⟩ node.id tactic).session.proof.tree.forgetNames known =
      (p.tree.forgetNames known).modify
        (Closing.change node.id (tactic.closing p node.id node)) q := by
  cases hclosing : tactic.closing p node.id node with
  | error failure =>
      rw [(hnode.run_error supply hclosing).1]
      exact (Derivation.modify_id _ q).symm
  | ok closing =>
      rw [(hnode.run_ok supply hp hclosing).1]
      refine Derivation.mapLabels_modify (fun e => ?_) p.tree q
      rw [Closing.change, ← forgetNames_newChildren hknown supply]
      exact forgetNames_closeRoot closing.rule closing.backLink _ e

end

/-! ### A call elsewhere -/

/-- A call at an open leaf leaves the other open leaves of a numbered proof where they are, with the
nodes above them as they were. -/
lemma elsewhere (hp : p.Coherent) (hnode : p.OpenLeaf q node) (hnode' : p.OpenLeaf q' node')
    (hne : q ≠ q') (supply : Supply) (tactic : Tactic) :
    let after := (Session.run ⟨p, supply⟩ node.id tactic).session.proof
    after.tree.at? q' = some (.node node' []) ∧ after.tree.above q' = p.tree.above q' := by
  intro after
  cases hclosing : tactic.closing p node.id node with
  | error failure =>
      have hafter : after = p := congrArg Session.proof (hnode.run_error supply hclosing).1
      rw [hafter]
      exact ⟨hnode'.at?_eq, rfl⟩
  | ok closing =>
      have hafter := congrArg (fun s => s.proof.tree) (hnode.run_ok supply hp.indexed hclosing).1
      obtain ⟨d, hd, hlabel, hids⟩ := exists_at?_close_of_ne hnode.at?_eq hnode'.at?_eq hne.symm
        closing.rule closing.backLink
        (newChildren node.id 0 (supply.issueAll closing.subgoals).1)
      have hleaf : d = .node node' [] := by
        obtain ⟨label, children⟩ := d
        obtain rfl : label = node' := hlabel
        obtain rfl : children = [] := List.map_eq_nil_iff.mp hids
        rfl
      refine ⟨hafter ▸ hleaf ▸ hd, ?_⟩
      have habove := Derivation.above_modify
        (closeRoot closing.rule closing.backLink
          (newChildren node.id 0 (supply.issueAll closing.subgoals).1))
        (d := p.tree) (p := q) (q := q')
        fun ⟨i, r, hq'⟩ => hnode.not_prefix hnode' hne ⟨i :: r, hq'.symm⟩
      exact hafter ▸ habove

end OpenLeaf

/-- What a tactic asks for at an open node is the same after a call at another one. -/
lemma closing_elsewhere {sequent : Sequent} (h : ReflTransGen Edits (start sequent) p)
    (hnode : p.OpenLeaf q node) (hnode' : p.OpenLeaf q' node') (hne : q ≠ q') (supply : Supply)
    (tactic tactic' : Tactic) :
    let after := (Session.run ⟨p, supply⟩ node.id tactic).session.proof
    after.Coherent ∧ after.OpenLeaf q' node' ∧
      tactic'.closing after node'.id node' = tactic'.closing p node'.id node' := by
  intro after
  have hstep : ReflTransGen Edits p after :=
    edits_of_resumes (resumes_runAll ⟨p, supply⟩ [(node.id, tactic)])
  obtain ⟨hp, hnumbered⟩ := numbered_of_edits h
  obtain ⟨hafter, hnumbered'⟩ := numbered_of_edits (h.trans hstep)
  obtain ⟨hat, habove⟩ := hnode.elsewhere hp hnode' hne supply tactic
  refine ⟨hafter, ⟨hat, hnode'.isOpen, ?_⟩, tactic'.closing_congr node' ?_⟩
  · exact (hafter.find?_index hnumbered'.distinctIds).mpr ⟨_, hat, rfl⟩
  · have hbefore := hp.matchingAncestor?_eq hnumbered.distinctIds hnode'.at?_eq
    have hlater := hafter.matchingAncestor?_eq hnumbered'.distinctIds hat
    rw [habove] at hlater
    exact hlater.trans hbefore.symm

/-- The ids that a call at an open leaf gives out are not those of nodes. -/
lemma Coherent.childId_not_mem (hp : p.Coherent) (hnumbered : p.tree.Numbered)
    (hnode : p.OpenLeaf q node) (i : Nat) : childId node.id i ∉ p.tree.nodes.map Node.id := by
  intro hmem
  obtain ⟨k, hk, hid⟩ := List.mem_map.mp hmem
  exact hp.not_mem_names_childId hnumbered hnode.at?_eq i (hid ▸ hp.covers k hk)

/-- **Two calls at different open leaves**: the second one comes out as its tactic fares before the
first one, and the changes are made and the names given out one after the other. -/
lemma run_after_run {sequent : Sequent} (h : ReflTransGen Edits (start sequent) p)
    (hnode : p.OpenLeaf q node) (hnode' : p.OpenLeaf q' node') (hne : q ≠ q') (supply : Supply)
    (tactic tactic' : Tactic) :
    let first := Session.run ⟨p, supply⟩ node.id tactic
    let second := first.session.run node'.id tactic'
    let known := p.tree.nodes.map Node.id
    second.outcome = (tactic'.closing p node'.id node').map (fun _ => ()) ∧
      second.session.proof.tree.forgetNames known =
        ((p.tree.forgetNames known).modify
          (Closing.change node.id (tactic.closing p node.id node)) q).modify
          (Closing.change node'.id (tactic'.closing p node'.id node')) q' ∧
      second.session.supply.next =
        supply.next + (Closing.judgments (tactic.closing p node.id node)).length +
        (Closing.judgments (tactic'.closing p node'.id node')).length := by
  intro first second known
  obtain ⟨hp, hnumbered⟩ := numbered_of_edits h
  obtain ⟨hfirst, hleaf, hclosing⟩ := closing_elsewhere h hnode hnode' hne supply tactic tactic'
  have htree := hleaf.forgetNames_tree_run hfirst.indexed first.session.supply tactic'
    (hp.childId_not_mem hnumbered hnode')
  have hnext := hleaf.next_supply_run hfirst.indexed first.session.supply tactic'
  rw [hclosing, hnode.forgetNames_tree_run hp.indexed supply tactic
    (hp.childId_not_mem hnumbered hnode)] at htree
  rw [hclosing, hnode.next_supply_run hp.indexed supply tactic] at hnext
  refine ⟨?_, htree, hnext⟩
  rw [← hclosing]
  exact hleaf.outcome_run hfirst.indexed first.session.supply tactic'

/-- Where trees have the same ids in the same places, numbered proofs answer look-ups alike. -/
lemma Coherent.find?_index_of_forgetNames {p p' : Proof} (hp : p.Coherent)
    (hids : p.tree.DistinctIds) (hp' : p'.Coherent) (hids' : p'.tree.DistinctIds)
    {known : List Text} (h : p.tree.forgetNames known = p'.tree.forgetNames known) (id : Text) :
    p.index.find? id = p'.index.find? id := by
  have hplaces (r : Proof) (q : Position) :
      (∃ d, r.tree.at? q = some d ∧ d.label.id = id) ↔
        ∃ d, (r.tree.forgetNames known).at? q = some d ∧ d.label.id = id := by
    rw [Derivation.forgetNames, Derivation.at?_mapLabels]
    cases r.tree.at? q with
    | none => simp
    | some d => simp [Derivation.label_mapLabels, Node.id_forgetName]
  refine Option.ext fun q => ?_
  rw [hp.find?_index hids, hp'.find?_index hids', hplaces, hplaces, h]

/-- **Work on different goals is independent**: let any history lead from the proof of one open
goal to `p`, and call two tactics at two different open nodes of `p`. Each call has the same
outcome, whether it comes first or second. Both orders lead to the same tree, up to the names of
the sequents of new nodes, to indexes that answer every look-up alike, and to the same supply of
names. -/
theorem runs_commute_of_edits (sequent : Sequent) (p : Proof)
    (h : ReflTransGen Edits (start sequent) p) (supply : Supply) (n m : Node)
    (hn : n ∈ p.openNodes) (hm : m ∈ p.openNodes) (hne : n ≠ m) (tacticN tacticM : Tactic) :
    let s : Session := ⟨p, supply⟩
    let first := s.run n.id tacticN
    let second := first.session.run m.id tacticM
    let first' := s.run m.id tacticM
    let second' := first'.session.run n.id tacticN
    let known := p.tree.nodes.map Node.id
    second'.outcome = first.outcome ∧ second.outcome = first'.outcome ∧
      second.session.proof.tree.forgetNames known =
        second'.session.proof.tree.forgetNames known ∧
      (∀ id, second.session.proof.index.find? id = second'.session.proof.index.find? id) ∧
      second.session.supply = second'.session.supply := by
  intro s first second first' second' known
  obtain ⟨hp, hnumbered⟩ := numbered_of_edits h
  obtain ⟨q, hq⟩ := hp.exists_openLeaf hnumbered hn
  obtain ⟨q', hq'⟩ := hp.exists_openLeaf hnumbered hm
  have hplaces : q ≠ q' := by
    rintro rfl
    have hsame := Option.some.inj (hq.at?_eq.symm.trans hq'.at?_eq)
    exact hne (congrArg Derivation.label hsame)
  obtain ⟨hout, htree, hnext⟩ := run_after_run h hq hq' hplaces supply tacticN tacticM
  obtain ⟨hout', htree', hnext'⟩ := run_after_run h hq' hq hplaces.symm supply tacticM tacticN
  have hsame : second.session.proof.tree.forgetNames known =
      second'.session.proof.tree.forgetNames known := by
    refine htree.trans (Eq.trans ?_ htree'.symm)
    exact Derivation.modify_comm _ _ (hq.not_prefix hq' hplaces) (hq'.not_prefix hq hplaces.symm)
  have hscript (script : List (Text × Tactic)) :
      (s.runAll script).proof.Coherent ∧ (s.runAll script).proof.tree.Numbered :=
    numbered_of_edits (h.trans (edits_of_resumes (resumes_runAll s script)))
  obtain ⟨hsecond, hids⟩ := hscript [(n.id, tacticN), (m.id, tacticM)]
  obtain ⟨hsecond', hids'⟩ := hscript [(m.id, tacticM), (n.id, tacticN)]
  refine ⟨hout'.trans (hq.outcome_run hp.indexed supply tacticN).symm,
    hout.trans (hq'.outcome_run hp.indexed supply tacticM).symm, hsame, ?_, ?_⟩
  · exact hsecond.find?_index_of_forgetNames hids.distinctIds hsecond' hids'.distinctIds hsame
  · rw [Nat.add_right_comm] at hnext'
    exact congrArg Supply.mk (hnext.trans hnext'.symm)

/-- A goal is split through a term in the middle. Its first part is turned around and its second
part split on a variable, in either order: the name of the new sequent below the first part
depends on the order, and nothing else does. -/
theorem runs_commute_of_edits_two_parts :
    let s : Session := .start {} { goal := ⟨.var "x", .var "y"⟩ }
    let t := s.runAll [(rootId, .transitivity (.var "y"))]
    let turned := t.runAll [("root.0", .symmetry), ("root.1", .caseSplit ⟨.lhs, []⟩)]
    let split := t.runAll [("root.1", .caseSplit ⟨.lhs, []⟩), ("root.0", .symmetry)]
    let known := t.proof.tree.nodes.map Node.id
    (turned.proof.node? "root.0.0").map (fun n => n.sequent.id) = some "s4" ∧
      (split.proof.node? "root.0.0").map (fun n => n.sequent.id) = some "s7" ∧
      turned.proof.tree.forgetNames known = split.proof.tree.forgetNames known ∧
      (∀ id, turned.proof.index.find? id = split.proof.index.find? id) ∧
      turned.supply = split.supply := by
  intro s t turned split known
  have hhistory : ReflTransGen Edits s.proof t.proof := edits_of_resumes (resumes_runAll s _)
  let n : Node :=
    { id := "root.0", sequent := { goal := ⟨.var "x", .var "y"⟩, id := "s2" }, parent := "root" }
  let m : Node :=
    { id := "root.1", sequent := { goal := ⟨.var "y", .var "y"⟩, id := "s3" }, parent := "root" }
  -- the scripts are unfolded into single calls, so that no run is evaluated below
  have hturned : turned = ((Session.run ⟨t.proof, t.supply⟩ n.id .symmetry).session.run m.id
      (.caseSplit ⟨.lhs, []⟩)).session := rfl
  have hsplit : split = ((Session.run ⟨t.proof, t.supply⟩ m.id (.caseSplit ⟨.lhs, []⟩)).session.run
      n.id .symmetry).session := rfl
  obtain ⟨-, -, hsame⟩ := runs_commute_of_edits _ t.proof hhistory t.supply n m (by decide)
    (by decide) (by decide) .symmetry (.caseSplit ⟨.lhs, []⟩)
  refine ⟨by decide, by decide, ?_⟩
  rw [hturned, hsplit]
  exact hsame

end Proof

end TreeCalculus
