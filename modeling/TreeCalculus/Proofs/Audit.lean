import Mathlib.Data.List.Forall2
import TreeCalculus.Proofs.Ascents
import TreeCalculus.Proofs.Verdicts

/-!
The audit of links.

The audit goes through the nodes of a tree and looks for the target of each link among the
ancestors, which it finds through the index. Where no id is repeated it reports exactly the nodes
whose link leads astray in the tree, in the order in which a traversal meets them.

* `Derivation.AstrayAt`: the link of a node leads to no node above it that has the same goal.
* `Proof.isValidLink_iff_of_stringIds`, `Proof.invalidBackLinks_eq`: the single link and the report
  of the audit, read off the tree.
* `Proof.audit_exact`: the audit reports every link that leads astray, once and in order, and no
  other.
-/

namespace TreeCalculus

open Json (Value)

/-- The node at a position has a link, and no node above it has both the id to which the link leads
and the goal of the node. -/
def Derivation.AstrayAt {ν : Type} [Naming ν] (d : Derivation ν) (q : Position) : Prop :=
  ∃ e link, d.at? q = some e ∧ e.label.backLink = some link ∧
    ¬ ∃ a ∈ d.above q, a.id = link ∧ a.sequent.goal.equals e.label.sequent.goal

namespace Proof

/-- Where ids are strings and none is repeated, a link is valid iff it leads to a node above that
has the same goal. -/
lemma isValidLink_iff_of_stringIds {p : Proof Value} (hp : p.reindex = p)
    (hids : p.tree.StringIds) (hdistinct : p.tree.DistinctIds) {q : Position}
    {d : Derivation Value} (hd : p.tree.at? q = some d) {link : Value} :
    p.isValidLink d.label link ↔
      ∃ a ∈ p.tree.above q, a.id = link ∧ a.sequent.goal.equals d.label.sequent.goal := by
  have hancestors := ancestors_eq_above hp hids hdistinct hd
  have hsame : ∀ a ∈ p.ancestors d.label.id, Naming.same a.id link ↔ a.id = link := by
    intro a ha
    rw [← hids.str_id (mem_nodes_of_walkUp ha)]
    exact Naming.same_str_iff _
  rw [isValidLink_iff_of_nodup (hancestors ▸ hdistinct.nodup_above hd) hsame, hancestors]

section Places

variable {ν : Type} [BEq ν] [Naming ν] {p : Proof ν} (hids : p.tree.DistinctIds)
  (hvalid : ∀ {q : Position} {d : Derivation ν}, p.tree.at? q = some d → ∀ {link : ν},
    p.isValidLink d.label link ↔
      ∃ a ∈ p.tree.above q, a.id = link ∧ a.sequent.goal.equals d.label.sequent.goal)

include hvalid

lemma astrayAt_iff {d : Derivation ν} {q : Position} (hd : p.tree.at? q = some d) :
    p.tree.AstrayAt q ↔
      ∃ link, d.label.backLink = some link ∧ ¬ p.isValidLink d.label link := by
  constructor
  · rintro ⟨e, link, he, hlink, hastray⟩
    obtain rfl : d = e := Option.some.inj (hd.symm.trans he)
    exact ⟨link, hlink, fun h => hastray ((hvalid hd).mp h)⟩
  · rintro ⟨link, hlink, h⟩
    exact ⟨d, link, hd, hlink, fun hup => h ((hvalid hd).mpr hup)⟩

include hids

open Classical in
/-- The audit reports, in the order of the traversal, the ids of the places from which a link leads
astray. -/
lemma invalidBackLinks_eq :
    p.invalidBackLinks =
      ((p.tree.entries []).filter fun entry => p.tree.AstrayAt entry.2).map Prod.fst := by
  -- as no id is repeated, both sides keep an id iff the link of its one node leads astray
  let astray (id : ν) : Bool :=
    decide (∃ q d, p.tree.at? q = some d ∧ d.label.id = id ∧ p.tree.AstrayAt q)
  have hastray {q : Position} {d : Derivation ν} (hd : p.tree.at? q = some d) :
      astray d.label.id = decide (p.tree.AstrayAt q) := by
    refine decide_eq_decide.mpr ⟨?_, fun h => ⟨q, d, hd, rfl, h⟩⟩
    rintro ⟨q', d', hd', hid, h⟩
    rwa [hids.position_eq hd hd' hid.symm]
  have hnodes : p.invalidBackLinks = (p.tree.nodes.filter fun n => astray n.id).map Node.id := by
    refine congrArg (List.map Node.id) (List.filter_congr fun n hn => ?_)
    obtain ⟨q, d, hd, rfl⟩ := Derivation.mem_nodes.mp hn
    rw [hastray hd]
    cases hlink : d.label.backLink with
    | none => simp [astrayAt_iff hvalid hd, hlink]
    | some link => simp [astrayAt_iff hvalid hd, hlink]
  have hentries : ((p.tree.entries []).filter fun entry => astray entry.1) =
      (p.tree.entries []).filter fun entry => p.tree.AstrayAt entry.2 := by
    refine List.filter_congr ?_
    rintro ⟨x, q⟩ hentry
    obtain ⟨q, d, rfl, hd, rfl⟩ := Derivation.mem_entries.mp hentry
    exact hastray hd
  calc p.invalidBackLinks
      = (p.tree.nodes.map Node.id).filter astray := by rw [hnodes, List.filter_map]; rfl
    _ = ((p.tree.entries []).map Prod.fst).filter astray := by rw [p.tree.map_fst_entries]
    _ = ((p.tree.entries []).filter fun entry => astray entry.1).map Prod.fst := List.filter_map
    _ = ((p.tree.entries []).filter fun entry => p.tree.AstrayAt entry.2).map Prod.fst := by
        rw [hentries]

open Classical in
/-- The places from which a link leads astray, in the order of the traversal, have the ids that the
audit reports. -/
lemma exists_astray_places :
    ∃ places : List Position, (∀ q, q ∈ places ↔ p.tree.AstrayAt q) ∧
      places.Pairwise Position.Before ∧
      List.Forall₂ (fun q id => ∃ d, p.tree.at? q = some d ∧ d.label.id = id) places
        p.invalidBackLinks := by
  refine ⟨((p.tree.entries []).filter fun entry => p.tree.AstrayAt entry.2).map Prod.snd,
    fun q => ?_, ?_, ?_⟩
  · simp only [List.mem_map, List.mem_filter, decide_eq_true_eq]
    constructor
    · rintro ⟨entry, ⟨-, h⟩, rfl⟩
      exact h
    · intro h
      have ⟨d, _, hd, _⟩ := h
      exact ⟨(d.label.id, q), ⟨Derivation.mem_entries.mpr ⟨q, d, rfl, hd, rfl⟩, h⟩, rfl⟩
  · exact (p.tree.pairwise_before []).sublist (List.filter_sublist.map Prod.snd)
  · rw [invalidBackLinks_eq hids hvalid, List.forall₂_map_left_iff, List.forall₂_map_right_iff,
      List.forall₂_same]
    rintro ⟨x, q⟩ hentry
    obtain ⟨q, d, rfl, hd, rfl⟩ := Derivation.mem_entries.mp (List.mem_of_mem_filter hentry)
    exact ⟨d, hd, rfl⟩

end Places

/-- **The audit of links is exact.** Let a proof be read whose nodes have strings for ids, none of
them repeated, with whatever links, rules and recorded parents. The places in its tree from which
a link leads astray form a list in the order of the traversal, and the audit reports the ids that
stand at these places, one for each and in this order. -/
theorem audit_exact (v : Value) (p : Proof Value) (hread : ofValue v = .ok p)
    (hids : p.tree.StringIds) (hdistinct : p.tree.DistinctIds) :
    ∃ places : List Position, (∀ q, q ∈ places ↔ p.tree.AstrayAt q) ∧
      places.Pairwise Position.Before ∧
      List.Forall₂ (fun q id => ∃ d, p.tree.at? q = some d ∧ d.label.id = id) places
        p.invalidBackLinks :=
  exists_astray_places hdistinct
    (isValidLink_iff_of_stringIds (reindex_of_ofValue hread) hids hdistinct)

open Command (nodeOn) in
/-- Links of all kinds: `a` is linked to its sibling `b`, `b` to itself, `d` to the node `a` above
it, which has another goal, `f` to the node `g` below it and `g` to a number; the links of `c` and
`e` lead up. The goals are about a variable whose name is `true`. -/
def crossLinked : Derivation Value :=
  .node (nodeOn (.str "root") (.bool true) (some .transitivity) none)
    [.node (nodeOn (.str "a") (.str "y") (some .symmetry) (some (.str "b")))
      [.node (nodeOn (.str "c") (.str "y") (some .induction) (some (.str "a"))) [],
       .node (nodeOn (.str "d") (.bool true) (some .induction) (some (.str "a"))) []],
     .node (nodeOn (.str "b") (.bool true) (some .symmetry) (some (.str "b")))
      [.node (nodeOn (.str "e") (.int 1) none (some (.str "root"))) []],
     .node (nodeOn (.str "f") (.bool true) none (some (.str "g")))
      [.node (nodeOn (.str "g") (.bool true) (some .induction) (some (.int 7))) []]]

/-- Five of the seven links lead astray, and the audit reports these. -/
theorem audit_exact_cross_linked :
    let p := ofTree crossLinked
    (∃ v, ofValue v = .ok p) ∧ p.tree.StringIds ∧ p.tree.DistinctIds ∧
      ∃ places : List Position, (∀ q, q ∈ places ↔ p.tree.AstrayAt q) ∧
        places.Pairwise Position.Before ∧
        List.Forall₂ (fun q id => ∃ d, p.tree.at? q = some d ∧ d.label.id = id) places
          [.str "a", .str "d", .str "b", .str "f", .str "g"] := by
  intro p
  have hread : ofValue p.toValue = .ok p := rfl
  have hids : p.tree.StringIds := by decide
  have hdistinct : p.tree.DistinctIds := (Derivation.distinctIds_skeleton hids).mp (by decide)
  have hreport : p.invalidBackLinks = [.str "a", .str "d", .str "b", .str "f", .str "g"] := rfl
  have hexact := audit_exact _ p hread hids hdistinct
  rw [hreport] at hexact
  exact ⟨⟨_, hread⟩, hids, hdistinct, hexact⟩

open Command (nodeOn) in
/-- A node between two others has `null` for an id, and the lowest one is linked to the root,
which has the same goal. No node records `null` for a parent, so the walk up from the lowest node
ends at once, and the audit reports it although no link leads astray. -/
theorem audit_false_alarm_below_null :
    let p : Proof Value := ofTree (.node (nodeOn (.str "r") (.str "x") (some .symmetry) none)
      [.node (nodeOn .null (.str "x") (some .symmetry) none)
        [.node (nodeOn (.str "g") (.str "x") (some .induction) (some (.str "r"))) []]])
    (∃ v, ofValue v = .ok p) ∧ p.tree.DistinctIds ∧ p.invalidBackLinks = [.str "g"] ∧
      ∀ q, ¬ p.tree.AstrayAt q := by
  intro p
  have hids : p.tree.nodes.map Node.id = [.str "r", .null, .str "g"] := rfl
  refine ⟨⟨p.toValue, rfl⟩, ?_, rfl, ?_⟩
  · rw [Derivation.DistinctIds, hids]
    simp [Text.ofString_inj]
  rintro q ⟨e, link, he, hlink, hastray⟩
  have hentry : (e.label.id, q) ∈ p.tree.entries [] :=
    Derivation.mem_entries.mpr ⟨q, e, rfl, he, rfl⟩
  have hentries : p.tree.entries [] = [(.str "r", []), (.null, [0]), (.str "g", [0, 0])] := rfl
  have hlink' : (p.tree.at? q).bind (fun d => d.label.backLink) = some link := by
    rw [he]
    exact hlink
  simp only [hentries, List.mem_cons, Prod.mk.injEq, List.not_mem_nil, or_false] at hentry
  obtain ⟨-, rfl⟩ | ⟨-, rfl⟩ | ⟨-, rfl⟩ := hentry
  · cases (hlink' : none = some link)
  · cases (hlink' : none = some link)
  · cases (hlink' : some (.str "r") = some link)
    have hgoal : (p.tree.at? [0, 0]).all fun d =>
        p.tree.label.sequent.goal.equals d.label.sequent.goal := rfl
    rw [he] at hgoal
    exact hastray ⟨p.tree.label, List.mem_cons_of_mem _ List.mem_cons_self, rfl, hgoal⟩

end Proof

end TreeCalculus
