import TreeCalculus.Proofs.Numbering

/-!
Links made by tactics.

Induction is the only tactic that links a node back, and it does so to the nearest node above that
has the same goal, leaving nothing to prove. Nodes are closed while they have no children, so no
later step touches a linked node or the nodes above it. Hence all links of a proof that only
tactics have worked on are valid, and its tree is complete exactly when no node is open, although
completeness is not looked for below a link.

* `Derivation.WellLinked`, `Derivation.WellLinked.close`: trees with links of this kind, and what
  a tactic keeps of them.
* `Proof.links_of_resumes`: the links of every proof that tactics, rebuilding and reloading lead
  to.
-/

namespace TreeCalculus

/-- The closings by induction are the links, and each link stands at a leaf and leads to the nearest
node above that has the same goal. -/
structure Derivation.WellLinked (d : Derivation) : Prop where
  isSome_iff : ∀ {q e}, d.at? q = some e →
    (e.label.backLink.isSome ↔ e.label.rule = some .induction)
  children_eq_nil : ∀ {q e}, d.at? q = some e → e.label.backLink.isSome → e.children = []
  nearest : ∀ {q e link}, d.at? q = some e → e.label.backLink = some link →
    ((d.above q).find? fun a => a.sequent.goal = e.label.sequent.goal).map Node.id = some link

namespace Derivation.WellLinked

open Proof

variable {d part : Derivation} {position : Position} {rule : Rule} {link : Option Text} {id : Text}
  {subgoals : List Sequent}

/-- Closing an open node without children keeps a tree well linked, if the closing links back only
by induction, with no subgoals, and to the nearest node above that has the same goal. -/
lemma close (hd : d.WellLinked) (hpart : d.at? position = some part) (hleaf : part.children = [])
    (hrule : link.isSome ↔ rule = .induction) (hsubgoals : link.isSome → subgoals = [])
    (hnearest : ∀ target, link = some target →
      ((d.above position).find? fun a => a.sequent.goal = part.label.sequent.goal).map Node.id =
        some target) :
    (d.modify (closeRoot rule link (newChildren id 0 subgoals)) position).WellLinked := by
  obtain ⟨label, children⟩ := part
  -- there was nothing below the closed node, so the nodes above the other ones are as before
  have habove {q : Position} {e : Derivation} (he : d.at? q = some e) :
      (d.modify (closeRoot rule link (newChildren id 0 subgoals)) position).above q =
        d.above q := by
    refine above_modify _ ?_
    rintro ⟨i, r, rfl⟩
    rw [at?_append, hpart, Option.bind_some, at?_node_cons, show children = [] from hleaf] at he
    cases he
  refine ⟨fun {q e} he => ?_, fun {q e} he hlink => ?_, fun {q e target} he hlink => ?_⟩
  · obtain ⟨-, rfl⟩ | ⟨n, sequent, -, -, rfl⟩ | ⟨-, e', he', hlabel, -⟩ := at?_close_cases hpart he
    · exact hrule.trans (by simp [closeRoot, Derivation.label])
    · simp [Derivation.label]
    · rw [hlabel]
      exact hd.isSome_iff he'
  · obtain ⟨-, rfl⟩ | ⟨n, sequent, -, -, rfl⟩ | ⟨-, e', he', hlabel, hlength⟩ :=
      at?_close_cases hpart he
    · rw [hsubgoals hlink]
      exact (List.append_nil children).trans hleaf
    · cases hlink
    · rw [hlabel] at hlink
      rw [hd.children_eq_nil he' hlink] at hlength
      exact List.eq_nil_of_length_eq_zero hlength
  · obtain ⟨rfl, rfl⟩ | ⟨n, sequent, -, -, rfl⟩ | ⟨-, e', he', hlabel, -⟩ :=
      at?_close_cases hpart he
    · rw [habove hpart]
      exact hnearest target hlink
    · cases hlink
    · rw [hlabel] at hlink ⊢
      rw [habove he']
      exact hd.nearest he' hlink

lemma linksAtClosedLeaves (hd : d.WellLinked) : d.LinksAtClosedLeaves := by
  intro q e he hlink
  refine ⟨?_, hd.children_eq_nil he hlink⟩
  simp [Node.isOpen, (hd.isSome_iff he).mp hlink]

lemma linksLeadUp (hd : d.WellLinked) : d.LinksLeadUp := by
  intro q e target he hlink
  obtain ⟨a, ha, hid⟩ := Option.map_eq_some_iff.mp (hd.nearest he hlink)
  exact ⟨a, List.mem_of_find?_eq_some ha, hid, by simpa using List.find?_some ha⟩

end Derivation.WellLinked

namespace Proof

open Relation

variable {sequent : Sequent} {p : Proof}

lemma wellLinked_start (sequent : Sequent) : (start sequent).tree.WellLinked := by
  refine ⟨fun {q e} he => ?_, fun {q e} he hlink => ?_, fun {q e link} he hlink => ?_⟩
  · obtain ⟨-, rfl⟩ := at?_start he
    simp [Derivation.label]
  · obtain ⟨-, rfl⟩ := at?_start he
    cases hlink
  · obtain ⟨-, rfl⟩ := at?_start he
    cases hlink

/-- Whatever tactics are called, the tree stays well linked. -/
lemma wellLinked_of_resumes (h : ReflTransGen Resumes (start sequent) p) : p.tree.WellLinked := by
  induction h with
  | refl => exact wellLinked_start sequent
  | tail hhistory hstep ih =>
      obtain ⟨hp, hnumbered⟩ := numbered_of_edits (edits_of_resumes hhistory)
      obtain ⟨-, heq | ⟨position, part, tactic, closing, subgoals, hpart, hopen, hclosing,
        hsubgoals, heq⟩⟩ := hstep.elim hp
      · rwa [heq]
      · obtain ⟨hrule, hlink⟩ := Tactic.links_of_closing hclosing
        rw [heq]
        refine ih.close hpart (hnumbered.children_eq_nil hpart hopen) hrule ?_ ?_
        · intro hsome
          obtain ⟨target, htarget⟩ := Option.isSome_iff_exists.mp hsome
          rwa [(hlink target htarget).1, List.map_eq_nil_iff] at hsubgoals
        · intro target htarget
          rw [← hp.matchingAncestor?_eq hnumbered.distinctIds hpart]
          exact (hlink target htarget).2

/-- **Links made by tactics**: whatever tactics are called on the proof of one open goal, with any
rebuilding of the index and reloading between them, a node is linked back iff it is closed by
induction; then it has no children, and the link is the id of the nearest node above that has the
same goal. All links are valid, and the proof is complete iff no node is open. -/
theorem links_of_resumes (sequent : Sequent) (p : Proof)
    (h : ReflTransGen Resumes (start sequent) p) :
    (∀ n ∈ p.tree.nodes, n.backLink.isSome ↔ n.rule = some .induction) ∧
    (∀ q d link, p.tree.at? q = some d → d.label.backLink = some link →
      d.children = [] ∧
      ((p.tree.above q).find? fun a => a.sequent.goal = d.label.sequent.goal).map Node.id =
        some link) ∧
    p.invalidBackLinks = [] ∧ (p.isComplete ↔ p.openNodes = []) := by
  obtain ⟨hp, hnumbered⟩ := numbered_of_edits (edits_of_resumes h)
  have hlinks := wellLinked_of_resumes h
  refine ⟨fun n hn => ?_, fun q d link hd hlink => ?_, ?_, ?_⟩
  · obtain ⟨q, d, hd, rfl⟩ := Derivation.mem_nodes.mp hn
    exact hlinks.isSome_iff hd
  · exact ⟨hlinks.children_eq_nil hd (by simp [hlink]), hlinks.nearest hd hlink⟩
  · exact (hp.invalidBackLinks_eq_nil hnumbered.distinctIds).mpr hlinks.linksLeadUp
  · exact Derivation.isComplete_iff_openNodes_eq_nil hlinks.linksAtClosedLeaves

/-- A proof by going through a term in the middle that appeals to the goal itself, and is reloaded
before its last goal is closed: the link is valid, and the proof is complete with no open node. -/
theorem links_of_resumes_circular :
    let s : Session := .start {} { goal := ⟨.var "x", .var "y"⟩ }
    let linked := (s.runAll [(rootId, .transitivity (.var "y")), ("root.0", .induction)]).proof
    let done := (Session.runAll ⟨linked.reindex, {}⟩ [("root.1", .reflexivity)]).proof
    (linked.node? "root.0").bind Node.backLink = some rootId ∧ ¬ linked.isComplete ∧
      done.invalidBackLinks = [] ∧ done.isComplete ∧ done.openNodes = [] := by
  intro s linked done
  have hlinked : ReflTransGen Resumes s.proof linked := resumes_runAll s _
  have hreloaded : ReflTransGen Resumes s.proof linked.reindex :=
    hlinked.tail (.reload (load_save linked))
  have hdone : ReflTransGen Resumes s.proof done := hreloaded.trans (resumes_runAll ⟨_, {}⟩ _)
  obtain ⟨-, -, hvalid, hcomplete⟩ := links_of_resumes _ done hdone
  have hdoneComplete : done.isComplete := by decide
  exact ⟨by decide, by decide, hvalid, hdoneComplete, hcomplete.mp hdoneComplete⟩

end Proof

end TreeCalculus
