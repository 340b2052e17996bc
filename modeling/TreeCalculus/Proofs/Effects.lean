import TreeCalculus.Proofs.Numbering

/-!
What a successful tactic does.

A tactic closes one open node and puts the open nodes of its subgoals below it. Nothing else
changes: the other nodes keep their labels and their children, the index gains the entries of the
new nodes, the new nodes take the place of the closed one in the list of open nodes, and their
sequents take the next names of the supply. So a node that is closed stays as it is for good.

* `Supply.issueAll_fst`, `Supply.next_issueAll`: the names that a supply gives out.
* `Session.newNodes`, `Session.ClosesOnly`: the effect of a successful call.
* `Proof.effects_of_edits`: every successful call has this effect, and closed nodes stay.
-/

namespace TreeCalculus

/-! ### Names for sequents -/

namespace Supply

/-- The sequents named from a supply take the next names in order. -/
lemma issueAll_fst (supply : Supply) (js : List Judgment) :
    (supply.issueAll js).1 =
      js.mapIdx fun i j => { toJudgment := j, id := "s" ++ toString (supply.next + i) } := by
  induction js generalizing supply with
  | nil => rfl
  | cons j rest ih =>
      rw [issueAll, ih, List.mapIdx_cons]
      simp only [issue, Naming.ofText_text, Nat.add_zero, Nat.add_assoc, Nat.add_comm 1]

/-- Naming sequents moves a supply on by their number. -/
lemma next_issueAll (supply : Supply) (js : List Judgment) :
    (supply.issueAll js).2.next = supply.next + js.length := by
  induction js generalizing supply with
  | nil => rfl
  | cons j rest ih =>
      rw [issueAll, ih, List.length_cons]
      simp only [issue]
      omega

end Supply

namespace Proof

/-! ### The new nodes -/

lemma entries_newChildren (id : Text) (position : Position) (i k : Nat) (subgoals : List Sequent) :
    Derivation.entriesOfAll position i (newChildren id k subgoals) =
      (List.range subgoals.length).map fun n => (childId id (k + n), position ++ [i + n]) := by
  induction subgoals generalizing i k with
  | nil => rfl
  | cons sequent rest ih =>
      rw [newChildren, Derivation.entriesOfAll, ih, Derivation.entries, Derivation.entriesOfAll,
        List.length_cons, List.range_succ_eq_map, List.map_cons, List.map_map]
      simp [Function.comp_def, Nat.add_assoc, Nat.add_comm 1]

end Proof

namespace Session

open Proof

/-- The nodes for the subgoals of a closing: open, numbered behind the id of the closed node, and
with the next names of the supply for their sequents. -/
def newNodes (s : Session) (id : Text) (closing : Closing) : List Node :=
  closing.subgoals.mapIdx fun i j =>
    { id := childId id i
      sequent := { toJudgment := j, id := "s" ++ toString (s.supply.next + i) }
      parent := some id }

lemma newChildren_issueAll (s : Session) (id : Text) (closing : Closing) :
    newChildren id 0 (s.supply.issueAll closing.subgoals).1 =
      (s.newNodes id closing).map (.node · []) := by
  refine List.ext_getElem? fun n => ?_
  rw [getElem?_newChildren, Supply.issueAll_fst, List.getElem?_mapIdx, List.getElem?_map, newNodes,
    List.getElem?_mapIdx, Option.map_map, Option.map_map, Nat.zero_add]
  rfl

/-- The session `s'` is `s` with one open node closed, and nothing else changed. -/
structure ClosesOnly (s s' : Session) (position : Position) (node : Node) (closing : Closing) :
    Prop where
  /-- The node keeps its id, its sequent and its parent, and has the new nodes below it. -/
  closed : s'.proof.tree.at? position =
    some (.node { node with rule := some closing.rule, backLink := closing.backLink }
      ((s.newNodes node.id closing).map (.node · [])))
  /-- All other nodes keep their labels and their children. -/
  others : ∀ q d, s.proof.tree.at? q = some d → q ≠ position →
    ∃ d', s'.proof.tree.at? q = some d' ∧ d'.label = d.label ∧ d'.childIds = d.childIds
  /-- There are no nodes but the old ones and the new ones. -/
  old_or_new : ∀ q d', s'.proof.tree.at? q = some d' →
    (∃ d, s.proof.tree.at? q = some d) ∨ ∃ i < closing.subgoals.length, q = position ++ [i]
  /-- The index gains the entries of the new nodes. -/
  index_eq : s'.proof.index.entries = s.proof.index.entries ++
    (List.range closing.subgoals.length).map fun i => (childId node.id i, position ++ [i])
  /-- No id has two entries. -/
  nodup_names : s'.proof.index.names.Nodup
  /-- The new nodes stand in the place of the closed one among the open nodes. -/
  openNodes_eq : ∃ before behind, s.proof.openNodes = before ++ node :: behind ∧
    s'.proof.openNodes = before ++ s.newNodes node.id closing ++ behind
  /-- As many names are given out as there are new nodes. -/
  next_eq : s'.supply.next = s.supply.next + closing.subgoals.length

end Session

namespace Proof

open Relation

variable {p : Proof}

/-- In a numbered proof no child of an open node is in the index. -/
lemma Coherent.not_mem_names_childId (hp : p.Coherent) (hnumbered : p.tree.Numbered)
    {position : Position} {node : Node} (hnode : p.tree.at? position = some (.node node []))
    (i : Nat) : childId node.id i ∉ p.index.names := by
  intro hmem
  obtain ⟨q, hq⟩ := Table.mem_names.mp hmem
  obtain ⟨d, hd, hid⟩ := hp.indexed _ q hq
  have hnodeId : node.id = idAt position := hnumbered.id_eq hnode
  rw [hnumbered.id_eq hd, hnodeId, ← idAt_concat] at hid
  rw [idAt_injective hid, Derivation.at?_append, hnode, Option.bind_some,
    Derivation.at?_node_cons] at hd
  cases hd

/-- Closing an open node without children puts the new nodes in its place among the open nodes. -/
lemma openNodes_close {tree : Derivation} {position : Position} {node : Node}
    (hnode : tree.at? position = some (.node node [])) (hopen : node.isOpen) (rule : Rule)
    (link : Option Text) {added : List Node} (hadded : ∀ n ∈ added, n.isOpen) :
    ∃ before behind, tree.openNodes = before ++ node :: behind ∧
      (tree.modify (closeRoot rule link (added.map (.node · []))) position).openNodes =
        before ++ added ++ behind := by
  obtain ⟨before, behind, hnodes, hmodify⟩ := Derivation.exists_nodes_modify hnode
  refine ⟨before.filter Node.isOpen, behind.filter Node.isOpen, ?_, ?_⟩
  · rw [Derivation.openNodes, hnodes, Derivation.nodes_node]
    simp [hopen]
  · have hleaves : (added.map (Derivation.node · [])).flatMap Derivation.nodes = added := by
      rw [List.flatMap_map]
      simp only [Derivation.nodes_node, List.flatMap_nil, List.flatMap_singleton']
    rw [Derivation.openNodes, hmodify, closeRoot, List.nil_append, Derivation.nodes_node, hleaves,
      List.filter_append, List.filter_append, List.filter_cons_of_neg (by simp [Node.isOpen]),
      List.filter_eq_self.mpr hadded]

/-- In a numbered proof the entries of new nodes come behind those of the index, under other ids. -/
lemma Coherent.nodup_names_append (hp : p.Coherent) (hnumbered : p.tree.Numbered)
    {position : Position} {node : Node} (hnode : p.tree.at? position = some (.node node []))
    (k : Nat) :
    ((p.index.entries ++ (List.range k).map fun i =>
      (childId node.id i, position ++ [i])).map Prod.fst).Nodup := by
  rw [List.map_append, List.map_map, List.nodup_append]
  refine ⟨hp.nodup_names, (List.nodup_range).map fun i i' h => ?_, ?_⟩
  · exact numeral_injective (Text.append_right_inj.mp h)
  · rintro x hx _ hx' rfl
    obtain ⟨i, -, rfl⟩ := List.mem_map.mp hx'
    exact hp.not_mem_names_childId hnumbered hnode i hx

/-- Closing an open node of a numbered proof adds the entries of the new nodes to the index. -/
lemma Coherent.entries_closedAt (hp : p.Coherent) (hnumbered : p.tree.Numbered) (supply : Supply)
    {position : Position} {node : Node} (hnode : p.tree.at? position = some (.node node []))
    (closing : Closing) :
    (Session.closedAt ⟨p, supply⟩ position (.node node []) closing).proof.index.entries =
      p.index.entries ++ (List.range closing.subgoals.length).map fun i =>
        (childId node.id i, position ++ [i]) := by
  have hadded : Derivation.entriesOfAll position 0
      (newChildren node.id 0 (supply.issueAll closing.subgoals).1) =
        (List.range closing.subgoals.length).map fun i => (childId node.id i, position ++ [i]) := by
    rw [entries_newChildren, Supply.issueAll_fst, List.length_mapIdx]
    simp only [Nat.zero_add]
  rw [← Table.entries_insertAll (hp.nodup_names_append hnumbered hnode closing.subgoals.length),
    ← hadded]
  rfl

/-- A successful call on a numbered proof closes one node and does nothing else. -/
lemma Coherent.closesOnly (hp : p.Coherent) (hnumbered : p.tree.Numbered) (supply : Supply)
    {position : Position} {node : Node} (hnode : p.tree.at? position = some (.node node []))
    (hopen : node.isOpen) (closing : Closing) :
    Session.ClosesOnly ⟨p, supply⟩
      (Session.closedAt ⟨p, supply⟩ position (.node node []) closing) position node closing := by
  have hadded := Session.newChildren_issueAll ⟨p, supply⟩ node.id closing
  have hindex := hp.entries_closedAt hnumbered supply hnode closing
  refine ⟨?_, fun q d hd hne => ?_, fun q d hd => ?_, hindex, ?_, ?_, ?_⟩
  · rw [← hadded]
    exact (Derivation.at?_modify_self _ p.tree position).trans (congrArg (Option.map _) hnode)
  · exact exists_at?_close_of_ne hnode hd hne _ _ _
  · obtain ⟨rfl, -⟩ | ⟨n, sequent, rfl, hn, -⟩ | ⟨-, d', hd', -⟩ := at?_close_cases hnode hd
    · exact .inl ⟨_, hnode⟩
    · have hlt := (List.getElem?_eq_some_iff.mp hn).1
      rw [Supply.issueAll_fst, List.length_mapIdx] at hlt
      exact .inr ⟨n, hlt, by simp [Derivation.children]⟩
    · exact .inl ⟨d', hd'⟩
  · rw [Table.names, hindex]
    exact hp.nodup_names_append hnumbered hnode closing.subgoals.length
  · have hnew : ∀ n ∈ Session.newNodes ⟨p, supply⟩ node.id closing, n.isOpen := by
      intro n hn
      obtain ⟨i, -, rfl⟩ := List.mem_mapIdx.mp hn
      rfl
    have hopenNodes := openNodes_close hnode hopen closing.rule closing.backLink hnew
    rw [← hadded] at hopenNodes
    exact hopenNodes
  · exact Supply.next_issueAll supply closing.subgoals

/-- A closed node stays as it is, with its children, whatever is done to a coherent proof. -/
lemma Coherent.closed_stays {p' : Proof} (hp : p.Coherent) (h : ReflTransGen Edits p p')
    {q : Position} {d : Derivation} (hd : p.tree.at? q = some d) (hclosed : ¬ d.label.isOpen) :
    ∃ d', p'.tree.at? q = some d' ∧ d'.label = d.label ∧ d'.childIds = d.childIds := by
  induction h with
  | refl => exact ⟨d, hd, rfl, rfl⟩
  | tail hhistory hstep ih =>
      obtain ⟨d', hd', hlabel, hids⟩ := ih
      obtain ⟨-, heq | ⟨position, part, rule, link, subgoals, hpart, hopen, heq⟩⟩ :=
        hstep.elim (hp.edits hhistory)
      · exact ⟨d', heq ▸ hd', hlabel, hids⟩
      · have hne : q ≠ position := by
          rintro rfl
          rw [Option.some.inj (hpart.symm.trans hd'), hlabel] at hopen
          exact hclosed hopen
        obtain ⟨d'', hd'', hlabel', hids'⟩ := exists_at?_close_of_ne hpart hd' hne rule link
          (newChildren part.label.id 0 subgoals)
        exact ⟨d'', heq ▸ hd'', hlabel'.trans hlabel, hids'.trans hids⟩

/-- **What a successful tactic does**: let any history lead from the proof of one open goal to
`p`. A call of a tactic that succeeds closes the node for which it was called, an open node
without children, as the tactic asks, and changes nothing else. And whatever is done to `p` later,
its closed nodes keep their labels and their children. -/
theorem effects_of_edits (sequent : Sequent) (p : Proof)
    (h : ReflTransGen Edits (start sequent) p) :
    (∀ supply id tactic, (Session.run ⟨p, supply⟩ id tactic).outcome = .ok () →
      ∃ position node closing, p.index.find? id = some position ∧
        p.tree.at? position = some (.node node []) ∧ node.id = id ∧ node.isOpen ∧
        tactic.closing p id node = .ok closing ∧
        Session.ClosesOnly ⟨p, supply⟩ (Session.run ⟨p, supply⟩ id tactic).session position node
          closing) ∧
    ∀ p', ReflTransGen Edits p p' → ∀ q d, p.tree.at? q = some d → ¬ d.label.isOpen →
      ∃ d', p'.tree.at? q = some d' ∧ d'.label = d.label ∧ d'.childIds = d.childIds := by
  obtain ⟨hp, hnumbered⟩ := numbered_of_edits h
  refine ⟨fun supply id tactic hok => ?_, fun p' hlater q d hd hclosed =>
    hp.closed_stays hlater hd hclosed⟩
  obtain ⟨position, part, closing, hposition, hpart, hopen, hclosing, hsession, -⟩ |
    ⟨node, failure, -, -, -, herror⟩ | ⟨-, -, herror⟩ :=
      Session.run_cases (s := ⟨p, supply⟩) hp.indexed id tactic
  · have hid := hp.indexed.id_eq hposition hpart
    have hleaf := hnumbered.children_eq_nil hpart hopen
    obtain ⟨node, children⟩ := part
    obtain rfl : children = [] := hleaf
    refine ⟨position, node, closing, hposition, hpart, hid, hopen, hclosing, ?_⟩
    rw [hsession]
    exact hp.closesOnly hnumbered supply hpart hopen closing
  · rw [herror] at hok
    cases hok
  · rw [herror] at hok
    cases hok

/-- A goal is split through a term in the middle, an attempt at the first part fails, and the
second part is split in the same way: its two parts take its place behind the first open node,
with the next two names, and the root keeps its rule and its children. -/
theorem effects_of_edits_second_part :
    let s : Session := .start {} { goal := ⟨.var "x", .var "y"⟩ }
    let t := s.runAll [(rootId, .transitivity (.var "z")), ("root.0", .congruence)]
    let attempt := t.run "root.1" (.transitivity (.var "w"))
    attempt.outcome = .ok () ∧
      (∃ node closing, closing.subgoals.length = 2 ∧
        t.ClosesOnly attempt.session [1] node closing) ∧
      attempt.session.proof.openNodes.map Node.id = ["root.0", "root.1.0", "root.1.1"] ∧
      attempt.session.proof.openNodes.map (fun n => n.sequent.id) = ["s2", "s4", "s5"] ∧
      ∃ d, attempt.session.proof.tree.at? [] = some d ∧ d.label.rule = some .transitivity ∧
        d.childIds = ["root.0", "root.1"] := by
  intro s t attempt
  have hhistory : ReflTransGen Edits s.proof t.proof := edits_of_resumes (resumes_runAll s _)
  have hlater : ReflTransGen Edits t.proof attempt.session.proof :=
    edits_of_resumes (resumes_runAll t [("root.1", .transitivity (.var "w"))])
  obtain ⟨heffect, hstays⟩ := effects_of_edits _ t.proof hhistory
  have hok : attempt.outcome = .ok () := rfl
  obtain ⟨position, node, closing, hposition, -, -, -, -, honly⟩ := heffect t.supply _ _ hok
  obtain rfl : position = [1] := (Option.some.inj hposition).symm
  have hnext : 4 + 2 = 4 + closing.subgoals.length := honly.next_eq
  obtain ⟨d, hd, hlabel, hids⟩ := hstays _ hlater [] _ (Derivation.at?_nil _) (by decide)
  refine ⟨hok, ⟨node, closing, by omega, honly⟩, by decide, by decide, d, hd, ?_, ?_⟩
  · rw [hlabel]
    rfl
  · rw [hids]
    rfl

end Proof

end TreeCalculus
