import TreeCalculus.Outline
import TreeCalculus.Proofs.Histories

/-!
Saving and loading loses nothing.

The saved form of a proof holds its tree only; the index and the record of parents are rebuilt. A
coherent proof comes back with the same tree, so everything that is read off the tree comes back.
The rebuilt index may list the ids in another order, and where ids are repeated it may lead to
another node. Where no id is repeated, two coherent proofs of the same tree answer every look-up
alike.

* `Proof.Coherent.find?_congr`, `Proof.Coherent.ancestors_congr`: look-ups and ancestors depend on
  the tree only, where no id is repeated.
* `Proof.load_save_of_edits`: what comes back from the saved form of any proof.
-/

namespace TreeCalculus.Proof

open Json (Value)
open Relation

namespace Coherent

variable {p q : Proof} (hp : p.Coherent) (hq : q.Coherent) (hids : p.tree.DistinctIds)
  (htree : q.tree = p.tree)

include hp hq hids htree

lemma find?_index_congr (id : Text) : q.index.find? id = p.index.find? id := by
  have hids' : q.tree.DistinctIds := htree ▸ hids
  refine Option.ext fun position => ?_
  rw [hq.find?_index hids', hp.find?_index hids, htree]

/-- Where no id is repeated, look-ups depend on the tree only. -/
lemma find?_congr (id : Text) : q.find? id = p.find? id := by
  rw [find?, find?, hp.find?_index_congr hq hids htree, htree]

lemma node?_congr (id : Text) : q.node? id = p.node? id := by
  rw [node?, node?, hp.find?_congr hq hids htree]

/-- Where no id is repeated, the ancestors depend on the tree only. -/
lemma ancestors_congr (id : Text) : q.ancestors id = p.ancestors id := by
  cases hfind : p.index.find? id with
  | none =>
      -- nothing is above an unknown node, however long the walk may be
      have hnone : p.node? id = none := by rw [node?, find?, hfind]; rfl
      have hwalk (r : Proof) (bound : Nat) : r.walkUp bound none = [] := by cases bound <;> rfl
      rw [ancestors, ancestors, hp.node?_congr hq hids htree, hnone, Option.bind_none, hwalk, hwalk]
  | some position =>
      obtain ⟨d, hd, rfl⟩ := hp.indexed id position hfind
      rw [hp.ancestors_eq hids hd, hq.ancestors_eq (htree ▸ hids) (htree ▸ hd), htree]

lemma pathToRoot_congr (id : Text) : q.pathToRoot id = p.pathToRoot id := by
  rw [pathToRoot, pathToRoot, Table.contains, Table.contains,
    hp.find?_index_congr hq hids htree, hp.ancestors_congr hq hids htree]

lemma matchingAncestor?_congr (id : Text) : q.matchingAncestor? id = p.matchingAncestor? id := by
  rw [matchingAncestor?, matchingAncestor?, hp.node?_congr hq hids htree,
    hp.ancestors_congr hq hids htree]

lemma invalidBackLinks_congr : q.invalidBackLinks = p.invalidBackLinks := by
  have hvalid : q.isValidLink = p.isValidLink := by
    funext node link
    rw [isValidLink, isValidLink, hp.ancestors_congr hq hids htree]
  rw [invalidBackLinks, invalidBackLinks, htree, hvalid]

end Coherent

/-- **Saving and loading loses nothing**: take a proof with which work begins, of one goal or read
from any value with strings for names, and let any history lead from it to `p`. The saved form of
`p` is loaded, and what comes back has the tree of `p`, so that it is as complete, has the same
open nodes, the same depth, the same outline and the same saved form. If the tree repeats no id,
look-ups, paths, matching ancestors and the audit of links agree as well. -/
theorem load_save_of_edits (p₀ p : Proof) (hbegin : Begins p₀) (h : ReflTransGen Edits p₀ p) :
    ∃ q : Proof Value, load p.embed.save = .ok q ∧ q.tree = p.embed.tree ∧
      (q.isComplete = p.embed.isComplete ∧ q.openNodes = p.embed.openNodes ∧
        q.depth = p.embed.depth ∧ (∀ title, q.outline title = p.embed.outline title) ∧
        q.save = p.embed.save) ∧
      (p.tree.DistinctIds →
        (∀ id : Text, q.find? (.str id) = p.embed.find? (.str id) ∧
          q.pathToRoot (.str id) = p.embed.pathToRoot (.str id) ∧
          q.matchingAncestor? (.str id) = p.embed.matchingAncestor? (.str id)) ∧
        q.invalidBackLinks = p.embed.invalidBackLinks) := by
  have hp : p.Coherent := hbegin.coherent.edits h
  have hload : load p.embed.save = .ok p.reindex.embed := by rw [save_embed, load_save]
  obtain ⟨hq, htree⟩ := hp.tree_load (load_save p)
  have htree' : p.reindex.embed.tree = p.embed.tree := congrArg Derivation.embed htree
  refine ⟨p.reindex.embed, hload, htree', ⟨?_, ?_, ?_, fun title => ?_, ?_⟩,
    fun hids => ⟨fun id => ⟨?_, ?_, ?_⟩, ?_⟩⟩
  · rw [isComplete, isComplete, htree']
  · rw [openNodes, openNodes, htree']
  · rw [depth, depth, htree']
  · rw [outline, outline, Outline.statusText, Outline.statusText, isComplete, isComplete, openNodes,
      openNodes, htree']
  · rw [save, save, toValue, toValue, htree']
  · rw [find?_embed, find?_embed, hp.find?_congr hq hids htree]
  · rw [pathToRoot_embed, pathToRoot_embed, hp.pathToRoot_congr hq hids htree]
  · rw [matchingAncestor?_embed, matchingAncestor?_embed,
      hp.matchingAncestor?_congr hq hids htree]
  · rw [invalidBackLinks_embed, invalidBackLinks_embed, hp.invalidBackLinks_congr hq hids htree]

/-- A proof is read in which a name with quotes, a line break and a letter beyond ASCII is the id
of two nodes, one of them open with a node below it; the index leads to the last of them, which is
closed by hand with a link to itself. All of it comes back. -/
theorem load_save_of_edits_repeated_name :
    let name : Text := "a \"b\" \\ é\n"
    let label : Node := { id := name, sequent := { goal := ⟨.var name, .ref name⟩, id := name } }
    let p₀ := (ofTree (.node label [.node label []])).reindex
    let p :=
      (Session.applyRule ⟨p₀, {}⟩ name .hypothesis [label.sequent] (some name)).session.proof
    p.openNodes.map Node.id = [name, childId name 0] ∧
      ∃ q : Proof Value, load p.embed.save = .ok q ∧ q.tree = p.embed.tree ∧
        q.openNodes = p.embed.openNodes := by
  intro name label p₀ p
  have hbegin : Begins p₀ := .read (ofValue_toValue (ofTree (.node label [.node label []])))
  obtain ⟨q, hload, htree, ⟨-, hopen, -⟩, -⟩ := load_save_of_edits p₀ p hbegin
    (.single (.applyRule {} name .hypothesis [label.sequent] (some name)))
  exact ⟨by decide, q, hload, htree, hopen⟩

end TreeCalculus.Proof
