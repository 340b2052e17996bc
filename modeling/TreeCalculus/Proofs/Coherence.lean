import Mathlib.Data.List.Induction
import TreeCalculus.Proof.Ancestry
import TreeCalculus.Proofs.Positions
import TreeCalculus.Proofs.Runs

/-!
The index of a proof against its tree.

A proof is coherent if its index leads to nodes with the ids that were looked up and knows every
id of the tree, and if every node records its parent. Every tree gives a coherent proof, and
closing a node keeps a proof coherent, whatever ids the tree repeats. Where no id is repeated, the
index gives for an id the one node that has it, and the ancestors found through the index are the
nodes above it in the tree.

* `Proof.at?_close_cases`: the nodes of a tree after one of them is closed.
* `Proof.Coherent`, `Proof.coherent_ofTree`, `Proof.Coherent.applyRule`: coherence, and what keeps
  it.
* `Derivation.DistinctIds`, `Proof.Coherent.find?_index`: look-ups where no id is repeated.
* `Proof.Coherent.ancestors_eq`, `Proof.Coherent.max?_length_pathToRoot`,
  `Proof.Coherent.isValidLink_iff`: ancestors, paths and links read off the tree.
* `Derivation.LinksLeadUp`, `Proof.Coherent.invalidBackLinks_eq_nil`: what the audit of links
  looks for.
-/

namespace TreeCalculus

namespace Proof

/-! ### Closing a node -/

lemma getElem?_newChildren (id : Text) (k n : Nat) (subgoals : List Sequent) :
    (newChildren id k subgoals)[n]? = subgoals[n]?.map fun sequent =>
      .node { id := childId id (k + n), sequent, parent := some id } [] := by
  induction subgoals generalizing k n with
  | nil => rfl
  | cons sequent rest ih =>
      rw [newChildren]
      cases n with
      | zero => rfl
      | succ n =>
          rw [List.getElem?_cons_succ, List.getElem?_cons_succ, ih, Nat.add_assoc, Nat.add_comm 1 n]

/-- **The nodes of a tree after one of them is closed**: the closed one, the new ones below it, and
all others with the labels and the numbers of children that they had. -/
lemma at?_close_cases {tree part d : Derivation} {position q : Position} {rule : Rule}
    {link : Option Text} {id : Text} {subgoals : List Sequent}
    (hpart : tree.at? position = some part)
    (hd : (tree.modify (closeRoot rule link (newChildren id 0 subgoals)) position).at? q = some d) :
    (q = position ∧ d = closeRoot rule link (newChildren id 0 subgoals) part) ∨
    (∃ n sequent, q = position ++ [part.children.length + n] ∧ subgoals[n]? = some sequent ∧
      d = .node { id := childId id n, sequent, parent := some id } []) ∨
    (q ≠ position ∧ ∃ d', tree.at? q = some d' ∧ d.label = d'.label ∧
      d.children.length = d'.children.length) := by
  by_cases hbelow : position <+: q
  · obtain ⟨r, rfl⟩ := hbelow
    rw [Derivation.at?_modify_append, hpart, Option.bind_some] at hd
    cases r with
    | nil =>
        rw [Derivation.at?_nil] at hd
        exact .inl ⟨List.append_nil _, (Option.some.inj hd).symm⟩
    | cons i r =>
        refine .inr ?_
        obtain ⟨label, children⟩ := part
        obtain ⟨c, hc, hr⟩ := Derivation.at?_cons_eq_some.mp hd
        by_cases hi : i < children.length
        · rw [List.getElem?_append_left hi] at hc
          refine .inr ⟨by simp, d, ?_, rfl, rfl⟩
          rw [Derivation.at?_append, hpart, Option.bind_some]
          exact Derivation.at?_cons_eq_some.mpr ⟨c, hc, hr⟩
        · obtain ⟨n, rfl⟩ := Nat.exists_eq_add_of_le (Nat.le_of_not_lt hi)
          rw [List.getElem?_append_right (Nat.le_add_right ..), Nat.add_sub_cancel_left,
            getElem?_newChildren, Option.map_eq_some_iff, Nat.zero_add] at hc
          obtain ⟨sequent, hsequent, rfl⟩ := hc
          cases r with
          | nil =>
              rw [Derivation.at?_nil] at hr
              exact .inl ⟨n, sequent, rfl, hsequent, (Option.some.inj hr).symm⟩
          | cons j r =>
              rw [Derivation.at?_node_cons] at hr
              cases hr
  · have houtline := Derivation.outline_at?_modify
      (id_closeRoot rule link (newChildren id 0 subgoals)) (d := tree) hbelow
    rw [hd, Option.map_some, eq_comm, Option.map_eq_some_iff] at houtline
    obtain ⟨d', hd', heq⟩ := houtline
    obtain ⟨hlabel, hids⟩ := Prod.mk.inj heq
    have hlength : d'.children.length = d.children.length := by
      simpa [Derivation.childIds] using congrArg List.length hids
    refine .inr (.inr ⟨?_, d', hd', hlabel.symm, hlength.symm⟩)
    rintro rfl
    exact hbelow List.prefix_rfl

/-- The part to which the index leads has the id that was looked up. -/
lemma Indexed.id_eq {p : Proof} {id : Text} {position : Position} {part : Derivation}
    (hp : p.Indexed) (hposition : p.index.find? id = some position)
    (hpart : p.tree.at? position = some part) : part.label.id = id := by
  obtain ⟨d, hd, hid⟩ := hp id position hposition
  rwa [Option.some.inj (hpart.symm.trans hd)]

/-! ### Coherence -/

/-- The index and the record of parents agree with the tree. -/
structure Coherent (p : Proof) : Prop where
  /-- The index leads to nodes with the id that was looked up. -/
  indexed : p.Indexed
  /-- Every id of the tree is known to the index. -/
  covers : ∀ n ∈ p.tree.nodes, n.id ∈ p.index.names
  /-- No id stands in the index twice. -/
  nodup_names : p.index.names.Nodup
  /-- Every node records the id of the node above it. -/
  linked : p.tree.relink none = p.tree

/-- The proof of a tree is coherent. -/
lemma coherent_ofTree (tree : Derivation) : (ofTree tree).Coherent where
  indexed := by
    intro id position h
    obtain hentry | hempty := Table.find?_insertAll h
    · rw [← tree.entries_relink none] at hentry
      obtain ⟨r, e, rfl, he, hid⟩ := Derivation.mem_entries.mp hentry
      exact ⟨e, he, hid⟩
    · cases hempty
  covers := by
    intro n hn
    refine Table.mem_names_insertAll.mpr (.inl ?_)
    rw [← tree.entries_relink none, Derivation.map_fst_entries]
    exact List.mem_map_of_mem hn
  nodup_names := Table.nodup_names_insertAll (t := .empty) List.nodup_nil _
  linked := tree.relink_relink none none

lemma coherent_start (sequent : Sequent) : (start sequent).Coherent :=
  coherent_ofTree (.node { id := rootId, sequent } [])

/-- A proof that starts has nothing but its root. -/
lemma at?_start {sequent : Sequent} {q : Position} {d : Derivation}
    (h : (start sequent).tree.at? q = some d) :
    q = [] ∧ d = .node { id := rootId, sequent } [] := by
  cases q with
  | nil => exact ⟨rfl, (Option.some.inj ((Derivation.at?_nil _).symm.trans h)).symm⟩
  | cons i q =>
      rw [start, Derivation.at?_node_cons] at h
      cases h

/-- Closing a node keeps the record of parents true. -/
lemma relink_closeRoot {part : Derivation} {parent : Option Text} (h : part.relink parent = part)
    (rule : Rule) (link : Option Text) (subgoals : List Sequent) :
    (closeRoot rule link (newChildren part.label.id 0 subgoals) part).relink parent =
      closeRoot rule link (newChildren part.label.id 0 subgoals) part := by
  obtain ⟨label, children⟩ := part
  obtain ⟨hlabel, hchildren⟩ := Derivation.relink_eq_self.mp h
  refine Derivation.relink_eq_self.mpr ⟨hlabel, fun c hc => ?_⟩
  rcases List.mem_append.mp hc with hc | hc
  · exact hchildren c hc
  · obtain ⟨n, hn⟩ := List.mem_iff_getElem?.mp hc
    rw [getElem?_newChildren, Option.map_eq_some_iff] at hn
    obtain ⟨sequent, -, rfl⟩ := hn
    rfl

namespace Coherent

variable {p q : Proof}

/-- Closing a node keeps a proof coherent. -/
lemma applyRule {id : Text} {rule : Rule} {subgoals : List Sequent} {link : Option Text}
    (hp : p.Coherent) (h : p.applyRule id rule subgoals link = some q) : q.Coherent := by
  obtain ⟨position, part, hposition, hpart, -, rfl⟩ := applyRule_eq_some.mp h
  obtain rfl := hp.indexed.id_eq hposition hpart
  refine ⟨hp.indexed.applyRule h, fun n hn => ?_, Table.nodup_names_insertAll hp.nodup_names _, ?_⟩
  · refine Table.mem_names_insertAll.mpr ?_
    have hold {r : Position} {e : Derivation} (he : p.tree.at? r = some e) :
        e.label.id ∈ p.index.names :=
      hp.covers e.label (Derivation.mem_nodes.mpr ⟨r, e, he, rfl⟩)
    obtain ⟨r, e, he, rfl⟩ := Derivation.mem_nodes.mp hn
    obtain ⟨-, rfl⟩ | ⟨i, sequent, -, hi, rfl⟩ | ⟨-, e', he', hlabel, -⟩ :=
      at?_close_cases hpart he
    · have hpart' := hold hpart
      obtain ⟨label, children⟩ := part
      exact .inr hpart'
    · have hnew := getElem?_newChildren part.label.id 0 i subgoals
      rw [hi, Option.map_some, Nat.zero_add] at hnew
      rw [Derivation.map_fst_entriesOfAll fun d _ => d.map_fst_entries]
      exact .inl (List.mem_map_of_mem (List.mem_flatMap.mpr
        ⟨_, List.mem_of_getElem? hnew, Derivation.mem_nodes_node.mpr (.inl rfl)⟩))
    · exact .inr (hlabel ▸ hold he')
  · exact Derivation.relink_modify hp.linked hpart fun parent hparent =>
      relink_closeRoot hparent rule link subgoals

end Coherent

end Proof

/-! ### Trees that repeat no id -/

/-- No two nodes of the tree have the same id. -/
def Derivation.DistinctIds {ν : Type} (d : Derivation ν) : Prop := (d.nodes.map Node.id).Nodup

instance (d : Derivation) : Decidable d.DistinctIds :=
  inferInstanceAs (Decidable (d.nodes.map Node.id).Nodup)

lemma Derivation.DistinctIds.position_eq {ν : Type} {d e e' : Derivation ν} {q q' : Position}
    (h : d.DistinctIds) (he : d.at? q = some e) (he' : d.at? q' = some e')
    (hid : e.label.id = e'.label.id) : q = q' := by
  have hentry {r : Position} {f : Derivation ν} (hf : d.at? r = some f) :
      (f.label.id, r) ∈ d.entries [] := mem_entries.mpr ⟨r, f, rfl, hf, rfl⟩
  rw [DistinctIds, ← d.map_fst_entries []] at h
  exact congrArg Prod.snd (List.inj_on_of_nodup_map h (hentry he) (hentry he') hid)

/-- A tree repeats no id if nodes with the same id stand in the same place. -/
lemma Derivation.distinctIds_of_position_eq {d : Derivation}
    (h : ∀ {q q' e e'}, d.at? q = some e → d.at? q' = some e' → e.label.id = e'.label.id → q = q') :
    d.DistinctIds := by
  rw [DistinctIds, ← d.map_fst_entries []]
  refine List.Nodup.map_on ?_ (List.Nodup.of_map _ (d.nodup_positions []))
  rintro ⟨x, q⟩ hq ⟨x', q'⟩ hq' rfl
  obtain ⟨r, e, rfl, he, rfl⟩ := mem_entries.mp hq
  obtain ⟨r', e', rfl, he', hid⟩ := mem_entries.mp hq'
  rw [h he he' hid.symm]

/-- On the way down to a node no id is met twice. -/
lemma Derivation.DistinctIds.nodup_above {ν : Type} {d e : Derivation ν} {q : Position}
    (h : d.DistinctIds) (he : d.at? q = some e) : ((d.above q).map Node.id).Nodup := by
  have hway := ((reverse_above_sublist he).map Node.id).nodup h
  rw [List.map_reverse, List.nodup_reverse, List.map_cons, List.nodup_cons] at hway
  exact hway.2

/-- Every link of the tree leads to a node above that has the same goal. -/
def Derivation.LinksLeadUp (d : Derivation) : Prop :=
  ∀ q e link, d.at? q = some e → e.label.backLink = some link →
    ∃ a ∈ d.above q, a.id = link ∧ a.sequent.goal = e.label.sequent.goal

/-- If an id comes only once among the ancestors, a link is valid iff it leads to an ancestor with
the same goal. -/
lemma Proof.isValidLink_iff_of_nodup {ν : Type} [BEq ν] [Naming ν] {p : Proof ν} {node : Node ν}
    {link : ν} (hnodup : ((p.ancestors node.id).map Node.id).Nodup)
    (hsame : ∀ a ∈ p.ancestors node.id, Naming.same a.id link ↔ a.id = link) :
    p.isValidLink node link ↔
      ∃ a ∈ p.ancestors node.id, a.id = link ∧ a.sequent.goal.equals node.sequent.goal := by
  rw [isValidLink]
  cases hfind : (p.ancestors node.id).find? fun a => Naming.same a.id link with
  | none =>
      have hnone := List.find?_eq_none.mp hfind
      simp only [Bool.false_eq_true, false_iff, not_exists, not_and]
      exact fun a ha hid => absurd ((hsame a ha).mpr hid) (hnone a ha)
  | some target =>
      have htarget := List.mem_of_find?_eq_some hfind
      have hid : target.id = link := by simpa [hsame target htarget] using List.find?_some hfind
      constructor
      · exact fun hgoal => ⟨target, htarget, hid, hgoal⟩
      · rintro ⟨a, ha, hlink, hgoal⟩
        have htarget' : target = a :=
          List.inj_on_of_nodup_map hnodup htarget ha (hid.trans hlink.symm)
        rwa [htarget']

namespace Proof.Coherent

variable {p : Proof} (hp : p.Coherent) (hids : p.tree.DistinctIds)

include hp hids

/-- Where no id is repeated, the index gives the position of the one node that has an id. -/
lemma find?_index {id : Text} {q : Position} :
    p.index.find? id = some q ↔ ∃ d, p.tree.at? q = some d ∧ d.label.id = id := by
  refine ⟨hp.indexed id q, ?_⟩
  rintro ⟨d, hd, rfl⟩
  obtain ⟨q', hq'⟩ := Table.mem_names.mp
    (hp.covers d.label (Derivation.mem_nodes.mpr ⟨q, d, hd, rfl⟩))
  obtain ⟨d', hd', hid⟩ := hp.indexed _ _ hq'
  rwa [hids.position_eq hd hd' hid.symm]

lemma node?_label {d : Derivation} {q : Position} (hd : p.tree.at? q = some d) :
    p.node? d.label.id = some d.label := by
  rw [node?, find?, (hp.find?_index hids).mpr ⟨d, hd, rfl⟩, Option.bind_some, hd, Option.map_some]

/-- The index is large enough for every way up. -/
lemma length_le_size {d : Derivation} {q : Position} (hd : p.tree.at? q = some d) :
    q.length ≤ p.index.size := by
  have hway := (Derivation.reverse_above_sublist hd).length_le
  rw [List.length_reverse, List.length_cons, Derivation.length_above hd] at hway
  have hsub : ∀ id ∈ p.tree.nodes.map Node.id, id ∈ p.index.names := by
    intro id hid
    obtain ⟨n, hn, rfl⟩ := List.mem_map.mp hid
    exact hp.covers n hn
  have hnodes := Table.length_le_size hids hsub
  rw [List.length_map] at hnodes
  omega

/-- The walk through recorded parents is the way up in the tree. -/
lemma walkUp_eq {d : Derivation} {q : Position} (hd : p.tree.at? q = some d) {bound : Nat}
    (hbound : q.length ≤ bound) : p.walkUp bound d.label.parent = p.tree.above q := by
  induction q using List.reverseRecOn generalizing d bound with
  | nil =>
      have hparent := Derivation.parent_of_relink hp.linked hd
      rw [hparent, Derivation.above_nil]
      cases bound <;> rfl
  | append_singleton q i ih =>
      have hparent := Derivation.parent_of_relink hp.linked hd
      rw [Derivation.at?_append] at hd
      obtain ⟨e, he, -⟩ := Option.bind_eq_some_iff.mp hd
      rw [Derivation.above_concat he] at hparent ⊢
      obtain _ | bound := bound
      · simp at hbound
      · rw [hparent, List.head?_cons, Option.map_some, Option.some_or, walkUp,
          hp.node?_label hids he]
        exact congrArg (e.label :: ·) (ih he (by simpa using hbound))

/-- The ancestors found through the index are the nodes above in the tree. -/
lemma ancestors_eq {d : Derivation} {q : Position} (hd : p.tree.at? q = some d) :
    p.ancestors d.label.id = p.tree.above q := by
  rw [ancestors, hp.node?_label hids hd, Option.bind_some]
  exact hp.walkUp_eq hids hd (hp.length_le_size hids hd)

/-- The path to the root goes through the nodes above. -/
lemma pathToRoot_eq {q : Position} {d : Derivation} (hd : p.tree.at? q = some d) :
    p.pathToRoot d.label.id = d.label.id :: (p.tree.above q).map Node.id := by
  have hfind := (hp.find?_index hids).mpr ⟨d, hd, rfl⟩
  have hcontains : p.index.contains d.label.id := by rw [Table.contains, hfind]; rfl
  rw [pathToRoot, if_pos hcontains, hp.ancestors_eq hids hd]

/-- The depth is the length of the longest path to the root. -/
lemma max?_length_pathToRoot :
    (p.index.names.map fun id => (p.pathToRoot id).length).max? = some p.depth := by
  have hlength {q : Position} {d : Derivation} (hd : p.tree.at? q = some d) :
      (p.pathToRoot d.label.id).length = q.length + 1 := by
    rw [hp.pathToRoot_eq hids hd, List.length_cons, List.length_map, Derivation.length_above hd]
  rw [List.max?_eq_some_iff]
  refine ⟨?_, fun n hn => ?_⟩
  · obtain ⟨q, d, hd, hdepth⟩ := p.tree.exists_length_eq_depth
    refine List.mem_map.mpr ⟨d.label.id, hp.covers d.label ?_, (hlength hd).trans hdepth⟩
    exact Derivation.mem_nodes.mpr ⟨q, d, hd, rfl⟩
  · obtain ⟨id, hid, rfl⟩ := List.mem_map.mp hn
    obtain ⟨q, hq⟩ := Table.mem_names.mp hid
    obtain ⟨d, hd, rfl⟩ := hp.indexed id q hq
    rw [hlength hd]
    exact Derivation.length_lt_depth hd

/-- The nearest ancestor with the same goal is found among the nodes above. -/
lemma matchingAncestor?_eq {d : Derivation} {q : Position} (hd : p.tree.at? q = some d) :
    p.matchingAncestor? d.label.id =
      (p.tree.above q).find? fun a => a.sequent.goal = d.label.sequent.goal := by
  rw [matchingAncestor?, hp.node?_label hids hd, Option.bind_some, hp.ancestors_eq hids hd]
  congr 1
  funext a
  exact Bool.eq_iff_iff.mpr (Equation.equals_eq_true.trans decide_eq_true_iff.symm)

/-- A link is valid iff it leads to a node above that has the same goal. -/
lemma isValidLink_iff {d : Derivation} {q : Position} (hd : p.tree.at? q = some d) {link : Text} :
    p.isValidLink d.label link ↔
      ∃ a ∈ p.tree.above q, a.id = link ∧ a.sequent.goal = d.label.sequent.goal := by
  have hancestors := hp.ancestors_eq hids hd
  rw [isValidLink_iff_of_nodup (hancestors ▸ hids.nodup_above hd) fun _ _ => beq_iff_eq, hancestors]
  simp only [Equation.equals_eq_true]

/-- All links are valid iff each of them leads to a node above that has the same goal. -/
lemma invalidBackLinks_eq_nil : p.invalidBackLinks = [] ↔ p.tree.LinksLeadUp := by
  rw [invalidBackLinks, List.map_eq_nil_iff, List.filter_eq_nil_iff]
  constructor
  · intro h q d link hd hlink
    have hvalid := h d.label (Derivation.mem_nodes.mpr ⟨q, d, hd, rfl⟩)
    rw [hlink] at hvalid
    exact (hp.isValidLink_iff hids hd).mp (by simpa using hvalid)
  · intro h n hn
    obtain ⟨q, d, hd, rfl⟩ := Derivation.mem_nodes.mp hn
    cases hlink : d.label.backLink with
    | none => simp
    | some link => simpa using (hp.isValidLink_iff hids hd).mpr (h q d link hd hlink)

end Proof.Coherent

end TreeCalculus
