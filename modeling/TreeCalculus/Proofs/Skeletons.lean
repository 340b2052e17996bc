import TreeCalculus.Proofs.Coherence
import TreeCalculus.Proofs.Naming

/-!
Proofs with strings for ids.

Look-ups and walks to the root see nothing of a node but its id and its parent. So where the nodes
of a saved proof have strings for ids, whatever its other names are, it is walked through like its
skeleton, a proof with texts for names of which nothing but ids and parents is left.

* `Derivation.StringIds`, `Derivation.skeleton`: trees with strings for ids, and what is left of
  them.
* `Derivation.relink_skeleton`, `Derivation.entries_eq_skeleton`: parents and entries.
* `Derivation.distinctIds_skeleton`: whether ids are repeated is seen in the skeleton.
* `Proof.find?_index_skeleton`, `Proof.ancestors_skeleton`: look-ups and walks.
* `Proof.ancestors_eq_above`: where no id is repeated, walks are the ways up in the tree.
-/

namespace TreeCalculus

open Json (Value)

/-- What is left of a node if only its id and its parent count. -/
def Node.skeleton (n : Node Value) : Node :=
  { id := n.id.str?.getD ""
    sequent := { goal := ⟨.leaf, .leaf⟩, id := "" }
    parent := n.parent.bind Value.str? }

/-! ### Trees -/

namespace Derivation

/-- All nodes have strings for ids. -/
def StringIds (d : Derivation Value) : Prop := ∀ n ∈ d.nodes, n.id.kind = .str

instance (d : Derivation Value) : Decidable d.StringIds :=
  inferInstanceAs (Decidable (∀ n ∈ d.nodes, n.id.kind = .str))

/-- The tree of the skeletons of the nodes. -/
def skeleton (d : Derivation Value) : Derivation := d.mapLabels Node.skeleton

lemma skeleton_node (label : Node Value) (children : List (Derivation Value)) :
    (node label children).skeleton = node label.skeleton (children.map skeleton) :=
  mapLabels_node Node.skeleton label children

lemma StringIds.child {label : Node Value} {children : List (Derivation Value)}
    (h : (node label children).StringIds) {c : Derivation Value} (hc : c ∈ children) :
    c.StringIds :=
  fun n hn => h n (mem_nodes_node.mpr (.inr ⟨c, hc, hn⟩))

section StringIds

variable {d : Derivation Value} (h : d.StringIds)

include h

lemma StringIds.str_id {n : Node Value} (hn : n ∈ d.nodes) : .str n.skeleton.id = n.id :=
  Value.str_getD_str? (h n hn)

lemma entries_eq_skeleton (position : Position) :
    d.entries position =
      (d.skeleton.entries position).map fun entry => (.str entry.1, entry.2) := by
  have hentries : d.skeleton.entries position =
      (d.entries position).map fun entry => (entry.1.str?.getD "", entry.2) :=
    entries_mapLabels (f := Node.skeleton) (g := fun x => x.str?.getD "") (fun _ => rfl) d position
  have hid : ∀ entry ∈ d.entries position, .str (entry.1.str?.getD "") = entry.1 := by
    intro entry hentry
    have hmem := List.mem_map_of_mem (f := Prod.fst) hentry
    rw [map_fst_entries] at hmem
    obtain ⟨n, hn, heq⟩ := List.mem_map.mp hmem
    exact Value.str_getD_str? (heq ▸ h n hn)
  rw [hentries, List.map_map]
  refine ((List.map_congr_left fun entry hentry => ?_).trans (List.map_id _)).symm
  exact Prod.ext (hid entry hentry) rfl

lemma map_id_nodes_eq_skeleton :
    d.nodes.map Node.id = (d.skeleton.nodes.map Node.id).map .str := by
  rw [skeleton, nodes_mapLabels, List.map_map, List.map_map]
  exact List.map_congr_left fun n hn => (h.str_id hn).symm

/-- Ids are repeated in a tree iff they are in its skeleton. -/
lemma distinctIds_skeleton : d.skeleton.DistinctIds ↔ d.DistinctIds := by
  rw [DistinctIds, DistinctIds, map_id_nodes_eq_skeleton h,
    List.nodup_map_iff Value.str_injective]

/-- The record of parents of a skeleton is what is left of that of the tree. -/
lemma relink_skeleton (parent : Option Text) :
    (d.relink (parent.map .str)).skeleton = d.skeleton.relink parent := by
  induction d using ind generalizing parent with
  | node label children ih =>
      have hid : .str label.skeleton.id = label.id :=
        h.str_id (mem_nodes_node.mpr (.inl rfl))
      have hpresent : Naming.present label.id = (some label.skeleton.id).map .str := by
        rw [← hid]
        rfl
      rw [relink_node, skeleton_node, skeleton_node, relink_node, hpresent, List.map_map,
        List.map_map]
      congr 1
      · cases parent <;> rfl
      · exact List.map_congr_left fun c hc => ih c hc (h.child hc) (some label.skeleton.id)

/-- The parents that are recorded anew are strings. -/
lemma parent_eq_of_relink (parent : Option Text) {n : Node Value}
    (hn : n ∈ (d.relink (parent.map .str)).nodes) : n.parent = n.skeleton.parent.map .str := by
  induction d using ind generalizing parent with
  | node label children ih =>
      rw [relink_node] at hn
      obtain rfl | ⟨c, hc, hn⟩ := mem_nodes_node.mp hn
      · cases parent <;> rfl
      · obtain ⟨c, hchild, rfl⟩ := List.mem_map.mp hc
        have hid : .str label.skeleton.id = label.id :=
          h.str_id (mem_nodes_node.mpr (.inl rfl))
        rw [← hid] at hn
        exact ih c hchild (h.child hchild) (some label.skeleton.id) hn

end StringIds

end Derivation

/-! ### Proofs -/

namespace Proof

/-- The proof of the skeleton of the tree. -/
def skeleton (p : Proof Value) : Proof := ofTree p.tree.skeleton

/-- Lists are equal if their images are, under a map that tells their members apart. -/
lemma eq_of_map_eq {α β : Type} {f : α → β} {l l' : List α}
    (hf : ∀ a ∈ l, ∀ b ∈ l', f a = f b → a = b) (h : l.map f = l'.map f) : l = l' := by
  induction l generalizing l' with
  | nil => exact (List.map_eq_nil_iff.mp h.symm).symm
  | cons a l ih =>
      cases l' with
      | nil => cases h
      | cons b l' =>
          obtain ⟨hab, hrest⟩ := List.cons.inj h
          rw [hf a List.mem_cons_self b List.mem_cons_self hab,
            ih (fun a ha b hb => hf a (.tail _ ha) b (.tail _ hb)) hrest]

section Walks

variable {ν : Type} [BEq ν] {p : Proof ν}

lemma mem_nodes_of_node? {id : ν} {n : Node ν} (h : p.node? id = some n) : n ∈ p.tree.nodes := by
  obtain ⟨d, hd, rfl⟩ := Option.map_eq_some_iff.mp h
  obtain ⟨q, -, hq⟩ := Option.bind_eq_some_iff.mp hd
  exact Derivation.mem_nodes.mpr ⟨q, d, hq, rfl⟩

/-- A walk meets nodes of the tree. -/
lemma mem_nodes_of_walkUp {bound : Nat} {parent : Option ν} {n : Node ν}
    (h : n ∈ p.walkUp bound parent) : n ∈ p.tree.nodes := by
  induction bound generalizing parent with
  | zero => exact absurd h List.not_mem_nil
  | succ bound ih =>
      cases parent with
      | none => exact absurd h List.not_mem_nil
      | some id =>
          cases hid : p.node? id with
          | none => simp [walkUp, hid] at h
          | some node =>
              simp only [walkUp, hid, List.mem_cons] at h
              obtain rfl | h := h
              · exact mem_nodes_of_node? hid
              · exact ih h

end Walks

variable {p : Proof Value} (hp : p.reindex = p) (hids : p.tree.StringIds)

include hp hids

lemma tree_skeleton : p.skeleton.tree = p.tree.skeleton := by
  have hlinked : p.tree.relink none = p.tree := congrArg Proof.tree hp
  calc p.skeleton.tree = p.tree.skeleton.relink none := rfl
    _ = (p.tree.relink none).skeleton := (Derivation.relink_skeleton hids none).symm
    _ = p.tree.skeleton := by rw [hlinked]

lemma index_eq_skeleton : p.index = p.skeleton.index.embed fun q => q := by
  have hindex : p.index = .ofEntries (p.tree.entries []) := (congrArg Proof.index hp).symm
  rw [hindex, Derivation.entries_eq_skeleton hids]
  exact Table.insertAll_embed (fun q => q) .empty _

lemma find?_index_skeleton (id : Text) :
    p.index.find? (.str id) = p.skeleton.index.find? id := by
  rw [index_eq_skeleton hp hids, Table.find?_embed, Option.map_id']

lemma size_index_skeleton : p.index.size = p.skeleton.index.size := by
  rw [index_eq_skeleton hp hids, Table.size_embed]

lemma node?_skeleton (id : Text) :
    p.skeleton.node? id = (p.node? (.str id)).map Node.skeleton := by
  rw [node?, node?, find?, find?, find?_index_skeleton hp hids, tree_skeleton hp hids]
  cases p.skeleton.index.find? id with
  | none => rfl
  | some q =>
      rw [Option.bind_some, Option.bind_some, Derivation.skeleton, Derivation.at?_mapLabels,
        Option.map_map, Option.map_map]
      congr 1
      funext d
      exact d.label_mapLabels Node.skeleton

lemma parent_eq_skeleton {n : Node Value} (hn : n ∈ p.tree.nodes) :
    n.parent = n.skeleton.parent.map .str := by
  have hlinked : p.tree.relink none = p.tree := congrArg Proof.tree hp
  exact Derivation.parent_eq_of_relink hids none (hlinked.symm ▸ hn)

lemma walkUp_skeleton (bound : Nat) (parent : Option Text) :
    p.skeleton.walkUp bound parent = (p.walkUp bound (parent.map .str)).map Node.skeleton := by
  induction bound generalizing parent with
  | zero => rfl
  | succ bound ih =>
      cases parent with
      | none => rfl
      | some id =>
          rw [Option.map_some, walkUp, walkUp, node?_skeleton hp hids]
          cases hid : p.node? (.str id) with
          | none => rfl
          | some node =>
              have hparent := parent_eq_skeleton hp hids (mem_nodes_of_node? hid)
              simp only [Option.map_some, List.map_cons]
              rw [hparent, ← ih]

/-- The walk in a proof is that in its skeleton. -/
lemma ancestors_skeleton (id : Text) :
    p.skeleton.ancestors id = (p.ancestors (.str id)).map Node.skeleton := by
  have hparent : (p.node? (.str id)).bind Node.parent =
      ((p.skeleton.node? id).bind Node.parent).map .str := by
    rw [node?_skeleton hp hids]
    cases hid : p.node? (.str id) with
    | none => rfl
    | some node => exact parent_eq_skeleton hp hids (mem_nodes_of_node? hid)
  rw [ancestors, ancestors, hparent, ← walkUp_skeleton hp hids, size_index_skeleton hp hids]

lemma map_id_ancestors (id : Text) : (p.ancestors (.str id)).map Node.id =
    ((p.skeleton.ancestors id).map Node.id).map .str := by
  rw [ancestors_skeleton hp hids, List.map_map, List.map_map]
  exact List.map_congr_left fun n hn => (hids.str_id (mem_nodes_of_walkUp hn)).symm

/-- Where no id is repeated, the ancestors are the nodes above in the tree. -/
lemma ancestors_eq_above (hdistinct : p.tree.DistinctIds) {q : Position} {d : Derivation Value}
    (hd : p.tree.at? q = some d) : p.ancestors d.label.id = p.tree.above q := by
  have hlabel : d.label ∈ p.tree.nodes := Derivation.mem_nodes.mpr ⟨q, d, hd, rfl⟩
  have habove : ∀ n ∈ p.tree.above q, n ∈ p.tree.nodes := fun n hn =>
    (Derivation.reverse_above_sublist hd).subset (by simp [hn])
  have hskeleton : p.skeleton.ancestors d.label.skeleton.id = p.skeleton.tree.above q := by
    have hd' : p.skeleton.tree.at? q = some d.skeleton := by
      rw [tree_skeleton hp hids, Derivation.skeleton, Derivation.at?_mapLabels, hd]
      rfl
    have hdistinct' : p.skeleton.tree.DistinctIds := by
      rw [tree_skeleton hp hids]
      exact (Derivation.distinctIds_skeleton hids).mpr hdistinct
    have hcoherent : p.skeleton.Coherent := coherent_ofTree p.tree.skeleton
    have hancestors := hcoherent.ancestors_eq hdistinct' hd'
    rwa [Derivation.skeleton, Derivation.label_mapLabels] at hancestors
  -- both lists have nodes of the tree, and the same ids in the same order
  have hmap : (p.ancestors d.label.id).map Node.id = (p.tree.above q).map Node.id := by
    rw [← hids.str_id hlabel, map_id_ancestors hp hids, hskeleton, tree_skeleton hp hids,
      Derivation.skeleton, Derivation.above_mapLabels, List.map_map, List.map_map]
    exact List.map_congr_left fun n hn => hids.str_id (habove n hn)
  exact eq_of_map_eq (fun n hn m hm heq => List.inj_on_of_nodup_map hdistinct
    (mem_nodes_of_walkUp hn) (habove m hm) heq) hmap

end Proof

end TreeCalculus
