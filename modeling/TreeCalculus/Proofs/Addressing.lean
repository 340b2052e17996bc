import TreeCalculus.Proofs.Effects
import TreeCalculus.Proofs.Instances
import TreeCalculus.Proofs.RoundTrip

/-!
Addressing the nodes of a resumed proof.

A closing numbers the new nodes from zero behind the id of the closed node, whatever ids and
children are there already. So the ids that a proof can come to use are those of its open nodes
with numbers behind them. If none of them is taken, no id is ever repeated, and the index stays a
faithful cache of the tree. If one of them is taken, theorems with sufficiently many hypotheses
lead to it, and then two nodes share an id and one of them can no longer be addressed.

* `Proof.descendantId`, `Proof.childId_inj`: the ids below an id.
* `Proof.CachesTree`, `Proof.Coherent.cachesTree_iff`: the index as a cache of the tree.
* `Derivation.LeavesRoom`, `Derivation.LeavesRoom.close`: the ids to come are not taken, and what
  a closing keeps of it.
* `Proof.exists_closing_of_length`, `Proof.Coherent.exists_repeated_id`: every id to come can be
  reached.
* `Proof.cachesTree_iff_leavesRoom`: the exact condition for a faithful index.
* `Proof.index_astray_after_symmetry`: proofs without repeated ids that a single tactic spoils.
-/

namespace TreeCalculus

/-! ### Ids below an id -/

namespace Proof

/-- The id below `id` that the child numbers on the way down give. -/
def descendantId (id : Text) (numbers : List Nat) : Text := numbers.foldl childId id

@[simp] lemma descendantId_nil (id : Text) : descendantId id [] = id := rfl

lemma descendantId_cons (id : Text) (i : Nat) (numbers : List Nat) :
    descendantId id (i :: numbers) = descendantId (childId id i) numbers := rfl

lemma descendantId_concat (id : Text) (numbers : List Nat) (i : Nat) :
    descendantId id (numbers ++ [i]) = childId (descendantId id numbers) i := by
  rw [descendantId, List.foldl_append]
  rfl

lemma idAt_append (q numbers : Position) : idAt (q ++ numbers) = descendantId (idAt q) numbers := by
  induction numbers using List.reverseRecOn with
  | nil => rw [List.append_nil, descendantId_nil]
  | append_singleton numbers i ih =>
      rw [← List.append_assoc, idAt_concat, ih, descendantId_concat]

lemma toList_childId (id : Text) (i : Nat) :
    (childId id i).toList = id.toList ++ .char '.' :: (Text.ofString (toString i)).toList := by
  rw [childId, Naming.ofText_text, Naming.toText_text, Text.toList_append, Text.toList_append,
    List.append_assoc]
  rfl

/-- The id of a child, read backwards from its last dot, is that of its parent. -/
lemma dropWhile_childId (id : Text) (i : Nat) :
    (childId id i).toList.reverse.dropWhile (· ≠ .char '.') = .char '.' :: id.toList.reverse := by
  have hnumeral : ∀ c ∈ (Text.ofString (toString i)).toList.reverse, decide (c ≠ .char '.') := by
    intro c hc
    rw [decide_eq_true_eq]
    rintro rfl
    exact dot_not_mem_numeral i (List.mem_reverse.mp hc)
  rw [toList_childId, List.reverse_append, List.reverse_cons, List.append_assoc,
    List.dropWhile_append_of_pos hnumeral]
  rfl

/-- The id of a child determines its number and the id of its parent. -/
lemma childId_inj {id id' : Text} {i i' : Nat} :
    childId id i = childId id' i' ↔ id = id' ∧ i = i' := by
  constructor
  · intro h
    have hparent := congrArg (fun t : Text => t.toList.reverse.dropWhile (· ≠ .char '.')) h
    simp only [dropWhile_childId, List.cons.injEq, true_and, List.reverse_inj] at hparent
    obtain rfl : id = id' := congrArg Text.ofList hparent
    exact ⟨rfl, numeral_injective (Text.append_right_inj.mp h)⟩
  · rintro ⟨rfl, rfl⟩
    rfl

end Proof

/-! ### The index as a cache -/

namespace Proof

open Relation

/-- The index tells nothing but what the tree tells. -/
structure CachesTree (p : Proof) : Prop where
  /-- Every node is the one that is found by its id. -/
  find?_id : ∀ q d, p.tree.at? q = some d → p.index.find? d.label.id = some q
  /-- Every open node can be addressed. -/
  openNode?_id : ∀ n ∈ p.openNodes, p.openNode? n.id = some n
  /-- Rebuilding the index changes no look-up. -/
  find?_reindex :
    ∀ id, p.reindex.index.find? id = p.index.find? id ∧ p.reindex.find? id = p.find? id

/-- The index of a coherent proof is a cache of the tree iff the tree repeats no id. -/
lemma Coherent.cachesTree_iff {p : Proof} (hp : p.Coherent) :
    p.CachesTree ↔ p.tree.DistinctIds := by
  constructor
  · intro hcache
    refine Derivation.distinctIds_of_position_eq fun {q q' e e'} he he' hid => ?_
    have hfind := hcache.find?_id q e he
    rw [hid, hcache.find?_id q' e' he'] at hfind
    exact (Option.some.inj hfind).symm
  · intro hids
    have hfind {q : Position} {d : Derivation} (hd : p.tree.at? q = some d) :
        p.index.find? d.label.id = some q := (hp.find?_index hids).mpr ⟨d, hd, rfl⟩
    have hrebuilt : p.reindex.Coherent := coherent_ofTree p.tree
    refine ⟨fun q d hd => hfind hd, fun n hn => ?_, fun id => ⟨?_, ?_⟩⟩
    · obtain ⟨hmem, hopen⟩ := List.mem_filter.mp hn
      obtain ⟨q, d, hd, rfl⟩ := Derivation.mem_nodes.mp hmem
      exact openNode?_of_at? (hfind hd) hd hopen
    · exact hp.find?_index_congr hrebuilt hids hp.tree_reindex id
    · exact hp.find?_congr hrebuilt hids hp.tree_reindex id

end Proof

/-! ### Room for new ids -/

open Proof

/-- No id is that of an open node with numbers behind it. -/
def Derivation.LeavesRoom (d : Derivation) : Prop :=
  ∀ n ∈ d.nodes, n.isOpen → ∀ m ∈ d.nodes, ∀ numbers ≠ [], m.id ≠ descendantId n.id numbers

namespace Derivation

variable {d part : Derivation} {position : Position}

/-- A tree whose ids spell out positions and whose open nodes have no children leaves room. -/
lemma Numbered.leavesRoom (hd : d.Numbered) : d.LeavesRoom := by
  intro n hn hopen m hm numbers hne hid
  obtain ⟨q, e, he, rfl⟩ := mem_nodes.mp hn
  obtain ⟨q', e', he', rfl⟩ := mem_nodes.mp hm
  rw [hd.id_eq he, hd.id_eq he', ← idAt_append] at hid
  rw [idAt_injective hid, at?_append, he, Option.bind_some] at he'
  have hleaf := hd.children_eq_nil he hopen
  obtain ⟨label, children⟩ := e
  obtain rfl : children = [] := hleaf
  cases numbers with
  | nil => exact hne rfl
  | cons i numbers =>
      rw [at?_node_cons] at he'
      cases he'

/-- A tree whose ids have no dots leaves room. -/
lemma leavesRoom_of_dotless (h : ∀ n ∈ d.nodes, CodePoint.char '.' ∉ n.id.toList) :
    d.LeavesRoom := by
  intro n _ _ m hm numbers hne hid
  obtain ⟨numbers, i, rfl⟩ := List.eq_nil_or_concat' numbers |>.resolve_left hne
  refine h m hm ?_
  rw [hid, descendantId_concat, toList_childId]
  simp

/-- After a closing, a node has the id of an old node in its place, and is open only if that one was
and was not closed, or it is a new one. -/
lemma old_or_new_of_close {e : Derivation} {q : Position} {rule : Rule} {link : Option Text}
    {id : Text} {subgoals : List Sequent} (hpart : d.at? position = some part)
    (he : (d.modify (closeRoot rule link (newChildren id 0 subgoals)) position).at? q = some e) :
    (∃ f, d.at? q = some f ∧ e.label.id = f.label.id ∧
      (e.label.isOpen → q ≠ position ∧ f.label.isOpen)) ∨
    ∃ i, q = position ++ [part.children.length + i] ∧ e.label.id = childId id i := by
  obtain ⟨rfl, rfl⟩ | ⟨i, sequent, rfl, -, rfl⟩ | ⟨hne, f, hf, hlabel, -⟩ :=
    at?_close_cases hpart he
  · refine .inl ⟨part, hpart, id_closeRoot .., fun hopen => ?_⟩
    obtain ⟨label, children⟩ := part
    cases hopen
  · exact .inr ⟨i, rfl, rfl⟩
  · exact .inl ⟨f, hf, congrArg Node.id hlabel, fun hopen => ⟨hne, hlabel ▸ hopen⟩⟩

/-- Closing an open node keeps ids distinct and leaves room, if there was room before. -/
lemma LeavesRoom.close (hids : d.DistinctIds) (hroom : d.LeavesRoom)
    (hpart : d.at? position = some part) (hopen : part.label.isOpen) (rule : Rule)
    (link : Option Text) (subgoals : List Sequent) :
    (d.modify (closeRoot rule link (newChildren part.label.id 0 subgoals)) position).DistinctIds ∧
      (d.modify (closeRoot rule link (newChildren part.label.id 0 subgoals))
        position).LeavesRoom := by
  have hmem {q : Position} {e : Derivation} (he : d.at? q = some e) : e.label ∈ d.nodes :=
    mem_nodes.mpr ⟨q, e, he, rfl⟩
  have hfree {q : Position} {e : Derivation} (he : d.at? q = some e) (i : Nat)
      (numbers : List Nat) : e.label.id ≠ descendantId (childId part.label.id i) numbers :=
    hroom _ (hmem hpart) hopen _ (hmem he) (i :: numbers) (by simp)
  constructor
  · refine distinctIds_of_position_eq fun {q q' e e'} he he' hid => ?_
    obtain ⟨f, hf, hfid, -⟩ | ⟨i, rfl, hi⟩ := old_or_new_of_close hpart he
    · obtain ⟨f', hf', hfid', -⟩ | ⟨i', rfl, hi'⟩ := old_or_new_of_close hpart he'
      · exact hids.position_eq hf hf' (hfid.symm.trans (hid.trans hfid'))
      · exact absurd (hfid.symm.trans (hid.trans hi')) (hfree hf i' [])
    · obtain ⟨f', hf', hfid', -⟩ | ⟨i', rfl, hi'⟩ := old_or_new_of_close hpart he'
      · exact absurd (hfid'.symm.trans (hid.symm.trans hi)) (hfree hf' i [])
      · rw [(childId_inj.mp (hi.symm.trans (hid.trans hi'))).2]
  · intro n hn hnopen m hm numbers hne hid
    obtain ⟨q, e, he, rfl⟩ := mem_nodes.mp hn
    obtain ⟨q', e', he', rfl⟩ := mem_nodes.mp hm
    obtain ⟨f', hf', hfid'⟩ | ⟨i', rfl, hi'⟩ := old_or_new_of_close hpart he'
    · rw [hfid'.1] at hid
      obtain ⟨f, hf, hfid, hold⟩ | ⟨i, rfl, hi⟩ := old_or_new_of_close hpart he
      · exact hroom _ (hmem hf) (hold hnopen).2 _ (hmem hf') numbers hne (hfid ▸ hid)
      · exact hfree hf' i numbers (hi ▸ hid)
    · -- without its last number the id is that of the closed node
      obtain ⟨numbers, k, rfl⟩ := List.eq_nil_or_concat' numbers |>.resolve_left hne
      rw [hi', descendantId_concat] at hid
      have hclosed := (childId_inj.mp hid).1
      obtain ⟨f, hf, hfid, hold⟩ | ⟨i, rfl, hi⟩ := old_or_new_of_close hpart he
      · rw [hfid] at hclosed
        obtain ⟨hplace, hfopen⟩ := hold hnopen
        by_cases hnil : numbers = []
        · subst hnil
          exact hplace (hids.position_eq hf hpart hclosed.symm)
        · exact hroom _ (hmem hf) hfopen _ (hmem hpart) numbers hnil hclosed
      · exact hfree hpart i numbers (hi ▸ hclosed)

end Derivation

/-! ### Reaching the ids to come -/

/-- A theorem whose goal matches every goal, and which leaves `k` trivial equations to prove. -/
def anyGoal (k : Nat) : Theorem :=
  { name := "any"
    sequent :=
      { hypotheses := List.replicate k ⟨.leaf, .leaf⟩
        goal := ⟨.var "y", .var "x"⟩
        id := "any" } }

/-- Every goal is an instance of two different variables. -/
lemma exists_matchTheorem_anyGoal (j : Judgment) (k : Nat) :
    ∃ bindings, j.matchTheorem (anyGoal k) = some bindings :=
  Judgment.exists_matchTheorem_iff.mpr ⟨⟨[("y", j.goal.lhs), ("x", j.goal.rhs)]⟩, rfl⟩

namespace Proof

open Relation

variable {p : Proof}

/-- At every node some tactic leaves any given number of subgoals. -/
lemma exists_closing_of_length (p : Proof) (id : Text) (node : Node) (k : Nat) :
    ∃ (tactic : Tactic) (closing : Closing), tactic.closing p id node = .ok closing ∧
      closing.subgoals.length = k := by
  obtain ⟨bindings, hmatch⟩ := exists_matchTheorem_anyGoal node.sequent.toJudgment k
  refine ⟨.useTheorem (anyGoal k), _, Judgment.byTheorem_of_matchTheorem hmatch, ?_⟩
  rw [List.length_map]
  exact List.length_replicate

/-- A call can put a node with any given number below an open node, behind its children; all other
nodes stay in their places, with their ids. -/
lemma Coherent.exists_calls_childId (hp : p.Coherent) (hids : p.tree.DistinctIds) {q : Position}
    {d : Derivation} (hd : p.tree.at? q = some d) (hopen : d.label.isOpen) (i : Nat) :
    ∃ p', Calls (fun _ _ => True) p p' ∧
      (∃ e, p'.tree.at? (q ++ [d.children.length + i]) = some e ∧ e.label.isOpen ∧
        e.label.id = childId d.label.id i) ∧
      ∀ {r f}, p.tree.at? r = some f →
        ∃ f', p'.tree.at? r = some f' ∧ f'.label.id = f.label.id := by
  obtain ⟨tactic, closing, hclosing, hlength⟩ :=
    exists_closing_of_length p d.label.id d.label (i + 1)
  have hposition := (hp.find?_index hids).mpr ⟨d, hd, rfl⟩
  obtain ⟨hsession, -⟩ := Session.run_of_ok (s := ⟨p, {}⟩) hp.indexed hposition hd hopen hclosing
  have hcall : Calls (fun _ _ => True) p (Session.closedAt ⟨p, {}⟩ q d closing).proof := by
    rw [← hsession]
    exact .call {} d.label.id tactic fun _ _ => trivial
  refine ⟨_, hcall, ?_, fun hf => exists_at?_close hd hf _ _ _⟩
  obtain ⟨sequent, hsequent⟩ : ∃ sequent,
      (Supply.issueAll {} closing.subgoals).1[i]? = some sequent := by
    rw [Supply.issueAll_fst, List.getElem?_mapIdx, List.getElem?_eq_getElem (by omega)]
    exact ⟨_, rfl⟩
  have hnew : (newChildren d.label.id 0 (Supply.issueAll {} closing.subgoals).1)[i]? =
      some (.node { id := childId d.label.id i, sequent, parent := some d.label.id } []) := by
    rw [getElem?_newChildren, hsequent, Option.map_some, Nat.zero_add]
  exact ⟨_, (at?_close_concat hd _ _ _ i).trans hnew, rfl, rfl⟩

/-- If an id to come is taken, then some run gives it to a second node. -/
lemma Coherent.exists_repeated_id (hp : p.Coherent) {q q' : Position} {d d' : Derivation}
    {numbers : List Nat} (hd : p.tree.at? q = some d) (hopen : d.label.isOpen)
    (hd' : p.tree.at? q' = some d') (hid : d'.label.id = descendantId d.label.id numbers)
    (hne : numbers = [] → q ≠ q') :
    ∃ p', Reaches (fun _ _ => True) p p' ∧ ¬ p'.tree.DistinctIds := by
  induction numbers generalizing p q d d' with
  | nil => exact ⟨p, .refl, fun hids => hne rfl (hids.position_eq hd hd' hid.symm)⟩
  | cons i numbers ih =>
      by_cases hids : p.tree.DistinctIds
      · obtain ⟨p₁, hcall, ⟨e, he, heopen, heid⟩, hstay⟩ := hp.exists_calls_childId hids hd hopen i
        obtain ⟨f, hf, hfid⟩ := hstay hd'
        -- the new node stands where no node was
        have hnew : q ++ [d.children.length + i] ≠ q' := by
          rintro rfl
          obtain ⟨label, children⟩ := d
          rw [Derivation.at?_append, hd, Option.bind_some] at hd'
          obtain ⟨c, hc, -⟩ := Derivation.at?_cons_eq_some.mp hd'
          rw [Derivation.children, List.getElem?_eq_none (Nat.le_add_right ..)] at hc
          cases hc
        obtain ⟨p', hrun, hrepeated⟩ := ih (hp.calls hcall) he heopen hf
          (by rw [hfid, hid, heid, descendantId_cons]) fun _ => hnew
        exact ⟨p', .head hcall hrun, hrepeated⟩
      · exact ⟨p, .refl, hids⟩

/-- **The index as a cache**: let a proof be read from a value, and let its tree repeat no id. The
index stays a cache of the tree in every run of tactics iff no id of the tree is that of an open
node with numbers behind it. Trees whose ids spell out positions and whose open nodes have no
children are among these. -/
theorem cachesTree_iff_leavesRoom (v : Json.Value) (p : Proof) (hread : ofValue v = .ok p.embed)
    (hids : p.tree.DistinctIds) :
    ((∀ p', Reaches (fun _ _ => True) p p' → p'.CachesTree) ↔ p.tree.LeavesRoom) ∧
      (p.tree.Numbered → p.tree.LeavesRoom) := by
  have hp : p.Coherent := (Begins.read hread).coherent
  refine ⟨⟨fun hcaches n hn hopen m hm numbers hne hid => ?_, fun hroom p' hrun => ?_⟩,
    Derivation.Numbered.leavesRoom⟩
  · obtain ⟨q, d, hd, rfl⟩ := Derivation.mem_nodes.mp hn
    obtain ⟨q', d', hd', rfl⟩ := Derivation.mem_nodes.mp hm
    obtain ⟨p', hrun, hrepeated⟩ := hp.exists_repeated_id hd hopen hd' hid fun h => absurd h hne
    have hp' : p'.Coherent := hp.edits (edits_of_resumes (resumes_of_reaches hrun))
    exact hrepeated (hp'.cachesTree_iff.mp (hcaches p' hrun))
  · obtain ⟨hp', hids', -⟩ := Edits.invariant (P := fun d => d.DistinctIds ∧ d.LeavesRoom)
      (fun _ _ _ rule link subgoals h hpart hopen => h.2.close h.1 hpart hopen rule link subgoals)
      hp ⟨hids, hroom⟩ (edits_of_resumes (resumes_of_reaches hrun))
    exact hp'.cachesTree_iff.mpr hids'

/-- An open node that has an open child under another name: turning the node around puts a new one
behind the child, the child is split in two, and all open nodes can be addressed. -/
theorem cachesTree_iff_leavesRoom_named_child :
    let label (id : Text) : Node := { id, sequent := { goal := ⟨.var "x", .var "y"⟩, id } }
    let p := (ofTree (.node (label "root") [.node (label "lemma") []])).reindex
    let p' := (Session.runAll ⟨p, {}⟩ [("root", .symmetry), ("lemma", .transitivity .leaf)]).proof
    p.tree.DistinctIds ∧ p.tree.LeavesRoom ∧ p'.CachesTree ∧
      p'.openNodes.map Node.id = ["lemma.0", "lemma.1", "root.0"] ∧
      p'.index.find? "root.0" = some [1] := by
  intro label p p'
  have hread :
      ofValue (ofTree (.node (label "root") [.node (label "lemma") []])).toValue = .ok p.embed :=
    ofValue_toValue _
  have hids : p.tree.DistinctIds := by decide
  have hroom : p.tree.LeavesRoom := Derivation.leavesRoom_of_dotless (by decide)
  have hrun : Reaches (fun _ _ => True) p p' :=
    Session.reaches_runAll ⟨p, {}⟩ _ fun _ _ _ => trivial
  have hcaches := (cachesTree_iff_leavesRoom _ p hread hids).1.mpr hroom p' hrun
  exact ⟨hids, hroom, hcaches, by decide, by decide⟩

/-- Two proofs that repeat no id, each spoiled by one call of a tactic. In the first an open node
has a sibling whose id is its own with a number behind it: the new node takes this id, the index
leads to it, and once the index is rebuilt, to the sibling. In the second an open node has a
numbered child: the number is given out again, and the child can no longer be addressed. -/
theorem index_astray_after_symmetry :
    let label (id : Text) : Node := { id, sequent := { goal := ⟨.var "x", .var "y"⟩, id } }
    let siblings := (ofTree (.node { label "root" with rule := some .transitivity }
      [.node (label "a") [], .node (label "a.0") []])).reindex
    let nested := (ofTree (.node (label "root") [.node (label "root.0") []])).reindex
    let p := (Session.runAll ⟨siblings, {}⟩ [("a", .symmetry)]).proof
    let p' := (Session.runAll ⟨nested, {}⟩ [("root", .symmetry)]).proof
    ((∃ v, ofValue v = .ok siblings.embed) ∧ siblings.tree.DistinctIds ∧
      p.index.find? "a.0" = some [0, 0] ∧ p.reindex.index.find? "a.0" = some [1] ∧
      ¬ p.CachesTree) ∧
    ((∃ v, ofValue v = .ok nested.embed) ∧ nested.tree.DistinctIds ∧
      p'.openNodes.map Node.id = ["root.0", "root.0"] ∧ p'.index.find? "root.0" = some [1] ∧
      (p'.tree.at? [0]).map (fun d => d.label.id) = some "root.0" ∧ ¬ p'.CachesTree) := by
  intro label siblings nested p p'
  have hp : p.index.find? "a.0" = some [0, 0] := by decide
  have hrebuilt : p.reindex.index.find? "a.0" = some [1] := by decide
  have hp' : p'.index.find? "root.0" = some [1] := by decide
  have hchild :
      p'.tree.at? [0] = some (.node { label "root.0" with parent := some "root" } []) := rfl
  refine ⟨⟨⟨_, ofValue_toValue _⟩, by decide, hp, hrebuilt, fun hcaches => ?_⟩,
    ⟨_, ofValue_toValue _⟩, by decide, by decide, hp', by rw [hchild]; rfl, fun hcaches => ?_⟩
  · have hsame := (hcaches.find?_reindex "a.0").1
    rw [hp, hrebuilt] at hsame
    cases hsame
  · have hfound : p'.index.find? "root.0" = some [0] := hcaches.find?_id [0] _ hchild
    rw [hp'] at hfound
    cases hfound

end Proof

end TreeCalculus
