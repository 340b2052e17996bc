import Mathlib.Data.List.Infix
import TreeCalculus.Proofs.DottedTexts
import TreeCalculus.Proofs.Fresh
import TreeCalculus.Proofs.Histories

/-!
Ids spell out positions.

The root of a proof has the id `root`, and a child has the id of its parent with a dot and its
number behind it. Numerals have no dots, so the parts of an id between the dots give the position
back, and no two positions share an id. A proof that starts from one sequent keeps this numbering
through every history, since nodes are closed while they have no children. So the tree, the ids,
the recorded parents and the index of such a proof are four accounts of the same thing.

* `Proof.idAt`, `Proof.idAt_injective`: the id for a position.
* `Proof.dottedPrefixes_idAt`: the dotted prefixes of an id are the ids on the way up.
* `Derivation.Numbered`, `Proof.numbered_of_edits`: numbered trees; all histories keep them.
* `Proof.Faithful`, `Proof.faithful_of_edits`: what ids, parents, index, ancestors and depth have
  to do with the tree, after every history.
-/

namespace TreeCalculus

/-! ### Dotted texts -/

namespace Text

/-- A text and what stands before each of its dots, longest first. -/
def dottedPrefixes (t : Text) : List Text :=
  (splitAt '.' t).inits.tail.reverse.map (intercalate ".")

/-- Joining with one more part at the end. -/
lemma intercalate_concat (sep : Text) {parts : List Text} (hne : parts ≠ []) (t : Text) :
    intercalate sep (parts ++ [t]) = intercalate sep parts ++ sep ++ t := by
  have hlists : ∀ ls : List (List CodePoint), ls ≠ [] →
      sep.toList.intercalate (ls ++ [t.toList]) =
        sep.toList.intercalate ls ++ sep.toList ++ t.toList := by
    intro ls hls
    induction ls with
    | nil => exact absurd rfl hls
    | cons l ls ih =>
        cases ls with
        | nil => simp
        | cons l' ls =>
            rw [List.cons_append, List.intercalate_cons_of_ne_nil (by simp), ih (by simp),
              List.intercalate_cons_cons]
            simp only [List.append_assoc]
  rw [intercalate, List.map_append, List.map_singleton, hlists _ (by simpa using hne)]
  rfl

end Text

lemma dot_not_mem_numeral (n : Nat) : CodePoint.char '.' ∉ (Text.ofString (toString n)).toList := by
  intro h
  rw [Text.ofString, Nat.toString_eq_repr, Nat.toList_repr] at h
  obtain ⟨c, hc, hdot⟩ := List.mem_map.mp h
  have hdigit := Nat.isDigit_of_mem_toDigits (by decide) (by decide) hc
  rw [CodePoint.char.inj hdot] at hdigit
  exact absurd hdigit (by decide)

namespace Proof

/-- The id for a position: the child numbers behind `root`, with dots between them. -/
def idAt (q : Position) : Text :=
  Text.intercalate "." (rootId :: q.map fun i => Text.ofString (toString i))

lemma idAt_concat (q : Position) (i : Nat) : idAt (q ++ [i]) = childId (idAt q) i := by
  rw [idAt, List.map_append, ← List.cons_append]
  exact Text.intercalate_concat "." (by simp) _

lemma splitAt_idAt (q : Position) :
    Text.splitAt '.' (idAt q) = rootId :: q.map fun i => Text.ofString (toString i) := by
  refine Text.splitAt_intercalate (fun t ht => ?_) (by simp)
  rcases List.mem_cons.mp ht with rfl | ht
  · decide
  · obtain ⟨i, -, rfl⟩ := List.mem_map.mp ht
    exact dot_not_mem_numeral i

/-- Different positions have different ids. -/
lemma idAt_injective : Function.Injective idAt := by
  intro q q' h
  have hparts := congrArg (Text.splitAt '.') h
  rw [splitAt_idAt, splitAt_idAt] at hparts
  exact List.map_injective_iff.mpr numeral_injective (List.cons.inj hparts).2

/-- The dotted prefixes of the id for a position are the ids for its beginnings. -/
lemma dottedPrefixes_idAt (q : Position) :
    (idAt q).dottedPrefixes = q.inits.reverse.map idAt := by
  rw [Text.dottedPrefixes, splitAt_idAt, List.inits_cons, List.tail_cons, List.map_inits,
    List.map_map, List.map_reverse, List.map_reverse, List.map_map]
  rfl

end Proof

/-! ### Numbered trees -/

/-- The id of every node spells out its position, and open nodes have no children. -/
structure Derivation.Numbered (d : Derivation) : Prop where
  id_eq : ∀ {q e}, d.at? q = some e → e.label.id = Proof.idAt q
  children_eq_nil : ∀ {q e}, d.at? q = some e → e.label.isOpen → e.children = []

namespace Derivation.Numbered

variable {d : Derivation} (hd : d.Numbered)

include hd

/-- A numbered tree repeats no id. -/
lemma distinctIds : d.DistinctIds :=
  distinctIds_of_position_eq fun he he' hid =>
    Proof.idAt_injective ((hd.id_eq he).symm.trans (hid.trans (hd.id_eq he')))

/-- The ids from a node upwards are those for the beginnings of its position. -/
lemma ids_above {q : Position} {e : Derivation} (he : d.at? q = some e) :
    e.label.id :: (d.above q).map Node.id = q.inits.reverse.map Proof.idAt := by
  induction q using List.reverseRecOn generalizing e with
  | nil => simp [hd.id_eq he]
  | append_singleton q i ih =>
      rw [at?_append] at he
      obtain ⟨f, hf, -⟩ := Option.bind_eq_some_iff.mp he
      rw [← at?_append] at he
      rw [above_concat hf, List.map_cons, ih hf, hd.id_eq he, List.inits_append]
      simp

/-- Closing an open node keeps a tree numbered: the node has no children, so the new ones count from
zero. -/
lemma close {position : Position} {part : Derivation} (hpart : d.at? position = some part)
    (hopen : part.label.isOpen) (rule : Rule) (link : Option Text) (subgoals : List Sequent) :
    (d.modify (Proof.closeRoot rule link (Proof.newChildren part.label.id 0 subgoals))
      position).Numbered := by
  have hnone := hd.children_eq_nil hpart hopen
  refine ⟨fun {q e} he => ?_, fun {q e} he hlabel => ?_⟩
  · obtain ⟨rfl, rfl⟩ | ⟨n, sequent, rfl, -, rfl⟩ | ⟨-, e', he', hlabel, -⟩ :=
      Proof.at?_close_cases hpart he
    · have hid := hd.id_eq hpart
      obtain ⟨label, children⟩ := part
      exact hid
    · rw [hnone, List.length_nil, Nat.zero_add, Proof.idAt_concat, ← hd.id_eq hpart]
      rfl
    · rw [hlabel, hd.id_eq he']
  · obtain ⟨-, rfl⟩ | ⟨n, sequent, -, -, rfl⟩ | ⟨-, e', he', hsame, hlength⟩ :=
      Proof.at?_close_cases hpart he
    · obtain ⟨label, children⟩ := part
      cases hlabel
    · rfl
    · rw [hsame] at hlabel
      rw [hd.children_eq_nil he' hlabel] at hlength
      exact List.eq_nil_of_length_eq_zero hlength

end Derivation.Numbered

namespace Proof

open Relation

lemma numbered_start (sequent : Sequent) : (start sequent).tree.Numbered := by
  refine ⟨fun {q e} he => ?_, fun {q e} he _ => ?_⟩
  · obtain ⟨rfl, rfl⟩ := at?_start he
    rfl
  · obtain ⟨rfl, rfl⟩ := at?_start he
    rfl

/-- Every history of a proof that starts from one sequent keeps it coherent and numbered. -/
lemma numbered_of_edits {sequent : Sequent} {p : Proof}
    (h : ReflTransGen Edits (start sequent) p) : p.Coherent ∧ p.tree.Numbered :=
  Edits.invariant (fun _ _ _ rule link subgoals htree hpart hopen =>
    htree.close hpart hopen rule link subgoals) (coherent_start sequent) (numbered_start sequent) h

/-! ### Four accounts of one tree -/

/-- The ids, the recorded parents, the index and the tree of a proof tell the same. -/
structure Faithful (p : Proof) : Prop where
  /-- The id of a node spells out its position. -/
  id_eq : ∀ q d, p.tree.at? q = some d → d.label.id = idAt q
  /-- The index leads to the nodes of the tree, to each of them by its id. -/
  mem_index : ∀ id q, (id, q) ∈ p.index.entries ↔ ∃ d, p.tree.at? q = some d ∧ d.label.id = id
  /-- No id has two entries. -/
  nodup_names : p.index.names.Nodup
  /-- A node records the id of the node above it, and the root records none. -/
  parent_eq : ∀ q d, p.tree.at? q = some d →
    d.label.parent = (p.tree.above q).head?.map Node.id
  /-- Open nodes have no children. -/
  children_eq_nil : ∀ q d, p.tree.at? q = some d → d.label.isOpen → d.children = []
  /-- The ancestors of a node are the nodes above it, nearest first. -/
  ancestors_eq : ∀ q d, p.tree.at? q = some d → p.ancestors d.label.id = p.tree.above q
  /-- The path from a node to the root is made of the dotted prefixes of its id. -/
  pathToRoot_eq : ∀ q d, p.tree.at? q = some d →
    p.pathToRoot d.label.id = d.label.id.dottedPrefixes
  /-- The depth is the length of the longest path to the root. -/
  depth_eq : (p.index.names.map fun id => (p.pathToRoot id).length).max? = some p.depth

/-- **Four accounts of one tree**: whatever calls of tactics, direct closings, rebuildings of the
index and reloadings lead from the proof of one open goal to `p`, in any order and whether they
succeed or not, the ids, the recorded parents and the index of `p` agree with its tree. -/
theorem faithful_of_edits (sequent : Sequent) (p : Proof)
    (h : ReflTransGen Edits (start sequent) p) : p.Faithful := by
  obtain ⟨hp, htree⟩ := numbered_of_edits h
  have hids := htree.distinctIds
  exact
    { id_eq := fun q d hd => htree.id_eq hd
      mem_index := fun id q =>
        (Table.mem_entries hp.nodup_names).trans (hp.find?_index hids)
      nodup_names := hp.nodup_names
      parent_eq := fun q d hd => by
        rw [Derivation.parent_of_relink hp.linked hd, Option.or_none]
      children_eq_nil := fun q d hd => htree.children_eq_nil hd
      ancestors_eq := fun q d hd => hp.ancestors_eq hids hd
      pathToRoot_eq := fun q d hd => by
        rw [hp.pathToRoot_eq hids hd, htree.ids_above hd, htree.id_eq hd, dottedPrefixes_idAt]
      depth_eq := hp.max?_length_pathToRoot hids }

/-- A goal is turned around, a second attempt at it fails, the new node is closed by hand with a
link and two nodes below it, and the proof is reloaded: then the path from the last node to the
root is made of the dotted prefixes of its id, and no path is longer. -/
theorem faithful_of_edits_reloaded :
    let s : Session := .start {} { goal := ⟨.leaf, .var "x"⟩ }
    let turned := s.runAll [(rootId, .symmetry), (rootId, .reflexivity)]
    let subgoal : Sequent := { goal := ⟨.var "x", .leaf⟩, id := "by hand" }
    let closed :=
      (turned.applyRule "root.0" .congruence [subgoal, subgoal] (some rootId)).session.proof
    load closed.save = .ok closed.reindex.embed ∧ closed.reindex.Faithful ∧
      closed.reindex.pathToRoot "root.0.1" = ["root.0.1", "root.0", "root"] ∧
      closed.reindex.depth = 3 := by
  intro s turned subgoal closed
  have hturned : ReflTransGen Edits s.proof turned.proof :=
    edits_of_resumes (resumes_runAll s _)
  have hclosed : ReflTransGen Edits s.proof closed :=
    hturned.tail (.applyRule turned.supply "root.0" .congruence [subgoal, subgoal] (some rootId))
  have hload : load closed.save = .ok closed.reindex.embed := load_save closed
  have hfaithful : closed.reindex.Faithful :=
    faithful_of_edits _ _ (hclosed.tail (.resume (.reload hload)))
  exact ⟨hload, hfaithful, by decide, by decide⟩

end Proof

end TreeCalculus
