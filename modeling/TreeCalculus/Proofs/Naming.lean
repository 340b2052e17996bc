import TreeCalculus.Document.Encode
import TreeCalculus.Proof.Ancestry
import TreeCalculus.Proofs.Positions

/-!
Proofs with texts for names, among those with values for names.

A saved proof may hold any value in the place of a name. Where all names are strings, the proof is
the image of one that has texts for names, and everything that is done with the image is done with
the original: look-ups, walks to the root and the comparison of goals give the images of what they
give there.

* `Table.embed`, `Sequent.embed`, `Derivation.embed`, `Proof.embed`: the images, part by part.
* `Table.find?_embed`, `Table.insertAll_embed`: look-ups in images.
* `Term.equals_embed`, `Term.toValue_embed`: images are compared and written like the originals.
* `Proof.ofTree_embed`, `Proof.node?_embed`, `Proof.ancestors_embed`: proofs and their look-ups.
* `Proof.matchingAncestor?_embed`, `Proof.invalidBackLinks_embed`: the search for ancestors with
  the same goal.
-/

namespace TreeCalculus

open Json (Value)

/-! ### Names -/

@[simp] lemma Json.Value.str_beq_str (a b : Text) : (Value.str a == Value.str b) = (a == b) := by
  have hkeys : (Value.str a == Value.str b) = (some (Value.Key.str a) == some (.str b)) := rfl
  rw [hkeys, Bool.eq_iff_iff]
  simp

lemma Json.Value.str_injective : Function.Injective Value.str := fun _ _ => Value.str.inj

lemma Json.Value.str_getD_str? {v : Value} (h : v.kind = .str) : .str (v.str?.getD "") = v := by
  cases v with
  | str s => rfl
  | _ => cases h

namespace Naming

variable (a b : Text)

@[simp] lemma same_str : same (Value.str a) (Value.str b) = (a == b) := Value.str_beq_str a b

/-- A string is the same as no other value. -/
lemma same_str_iff {v : Value} : same (Value.str a) v = true ↔ Value.str a = v := by
  have hkeys : same (Value.str a) v = (some (Value.Key.str a) == v.key?) := rfl
  rw [hkeys, beq_iff_eq]
  cases v with
  | real x => cases hx : x.toInt? <;> simp [Value.key?, hx]
  | _ => simp [Value.key?]

/-- Strings can be looked up. -/
lemma firstUnhashable?_map_str (names : List Text) :
    firstUnhashable? (names.map Value.str) = none := by
  rw [firstUnhashable?, List.findSome?_map, List.findSome?_eq_none_iff]
  exact fun _ _ => rfl

end Naming

/-! ### Tables -/

namespace Table

variable {α β : Type} (f : α → β)

/-- The image of a table, with strings for names and its values changed by `f`. -/
def embed (t : Table α) : Table β Value := ⟨t.entries.map fun entry => (.str entry.1, f entry.2)⟩

lemma find?_embed (t : Table α) (name : Text) :
    (t.embed f).find? (.str name) = (t.find? name).map f := by
  obtain ⟨entries⟩ := t
  rw [embed, find?, find?]
  induction entries with
  | nil => rfl
  | cons entry rest ih =>
      rw [List.map_cons, List.lookup_cons, List.lookup_cons, Value.str_beq_str]
      cases name == entry.1 with
      | true => rfl
      | false => exact ih

lemma size_embed (t : Table α) : (t.embed f).size = t.size := List.length_map _

lemma contains_embed (t : Table α) (name : Text) :
    (t.embed f).contains (.str name) = t.contains name := by
  rw [contains, contains, find?_embed, Option.isSome_map]

lemma embed_injective {f : α → β} (hf : Function.Injective f) :
    Function.Injective (embed f) := by
  rintro ⟨entries⟩ ⟨entries'⟩ h
  have hentry : Function.Injective fun entry : Text × α => (Value.str entry.1, f entry.2) := by
    rintro ⟨name, value⟩ ⟨name', value'⟩ heq
    simp only [Prod.mk.injEq, Value.str.injEq] at heq
    rw [heq.1, hf heq.2]
  exact congrArg mk (List.map_injective_iff.mpr hentry (congrArg Table.entries h))

lemma insert_embed (t : Table α) (name : Text) (value : α) :
    (t.embed f).insert (.str name) (f value) = (t.insert name value).embed f := by
  obtain ⟨entries⟩ := t
  rw [embed, insert, insert, embed]
  congr 1
  induction entries with
  | nil => rfl
  | cons entry rest ih =>
      rw [List.map_cons, insertEntry, insertEntry, Value.str_beq_str]
      cases entry.1 == name with
      | true => rfl
      | false => exact congrArg (List.cons _) ih

lemma insertAll_embed (t : Table α) (entries : List (Text × α)) :
    (t.embed f).insertAll (entries.map fun entry => (.str entry.1, f entry.2)) =
      (t.insertAll entries).embed f := by
  induction entries generalizing t with
  | nil => rfl
  | cons entry rest ih =>
      rw [List.map_cons, insertAll, insertAll, List.foldl_cons, List.foldl_cons, insert_embed]
      exact ih (t.insert entry.1 entry.2)

end Table

/-! ### Terms and equations -/

namespace Term

lemma embed_app (l r : Term) : ((app l r).embed : Term Value) = app l.embed r.embed := rfl

lemma embed_injective : Function.Injective fun t : Term => (t.embed : Term Value) := by
  intro a
  induction a with
  | app l r ihl ihr =>
      intro b h
      cases b with
      | app l' r' =>
          simp only [embed_app, app.injEq] at h
          rw [ihl h.1, ihr h.2]
      | _ => cases h
  | leaf | var x | ref n =>
      intro b h
      cases b <;> cases h
      rfl

/-- Images of terms are equal iff the terms are. -/
lemma equals_embed (a b : Term) :
    (a.embed : Term Value).equals b.embed = a.equals b := by
  induction a generalizing b with
  | leaf => cases b <;> rfl
  | var x =>
      cases b with
      | var y => exact Naming.same_str x y
      | _ => rfl
  | ref n =>
      cases b with
      | ref m => exact Naming.same_str n m
      | _ => rfl
  | app l r ihl ihr =>
      cases b with
      | app l' r' => rw [embed_app, embed_app, equals, ihl, ihr, equals]
      | _ => rfl

lemma toValue_embed (t : Term) : (t.embed : Term Value).toValue = t.toValue := by
  induction t with
  | app l r ihl ihr => rw [embed_app, toValue, toValue, ihl, ihr]
  | leaf | var x | ref n => rfl

lemma toText_embed (t : Term) : (t.embed : Term Value).toText = t.toText := by
  induction t with
  | app l r ihl ihr =>
      cases r with
      | app a b => exact congrArg₂ (fun s t : Text => s ++ " " ++ ("(" ++ t ++ ")")) ihl ihr
      | leaf | var x | ref n => exact congrArg₂ (fun s t : Text => s ++ " " ++ t) ihl ihr
  | leaf | var x | ref n => rfl

end Term

namespace Equation

lemma embed_injective : Function.Injective fun e : Equation => (e.embed : Equation Value) := by
  rintro ⟨l, r⟩ ⟨l', r'⟩ h
  simp only [embed, map, mk.injEq] at h
  rw [Term.embed_injective h.1, Term.embed_injective h.2]

lemma equals_embed (e e' : Equation) :
    (e.embed : Equation Value).equals e'.embed = e.equals e' := by
  have hside (a b : Term) : (a.map Naming.ofText : Term Value).equals (b.map Naming.ofText) =
      a.equals b := a.equals_embed b
  simp only [embed, map, equals, hside]

lemma toValue_embed (e : Equation) : (e.embed : Equation Value).toValue = e.toValue := by
  have hside (t : Term) : (t.map Naming.ofText : Term Value).toValue = t.toValue := t.toValue_embed
  simp only [embed, map, toValue, hside]

lemma toText_embed (e : Equation) : (e.embed : Equation Value).toText = e.toText := by
  have hside (t : Term) : (t.map Naming.ofText : Term Value).toText = t.toText := t.toText_embed
  simp only [embed, map, toText, hside]

end Equation

/-! ### Sequents and nodes -/

/-- The image of a judgment. -/
def Judgment.embed (j : Judgment) : Judgment Value :=
  { hypotheses := j.hypotheses.map Equation.embed, goal := j.goal.embed }

/-- The image of a sequent. -/
def Sequent.embed (s : Sequent) : Sequent Value :=
  { toJudgment := s.toJudgment.embed, id := .str s.id }

lemma Sequent.embed_injective : Function.Injective Sequent.embed := by
  rintro ⟨⟨hypotheses, goal⟩, id⟩ ⟨⟨hypotheses', goal'⟩, id'⟩ h
  simp only [embed, Judgment.embed, mk.injEq, Judgment.mk.injEq, Value.str.injEq] at h
  obtain ⟨⟨hhypotheses, hgoal⟩, hid⟩ := h
  rw [List.map_injective_iff.mpr Equation.embed_injective hhypotheses,
    Equation.embed_injective hgoal, hid]

lemma Sequent.toValue_embed (s : Sequent) : s.embed.toValue = s.toValue := by
  have hhypotheses : s.embed.hypotheses.map Equation.toValue =
      s.hypotheses.map Equation.toValue := by
    rw [embed, Judgment.embed, List.map_map]
    exact List.map_congr_left fun h _ => h.toValue_embed
  have hgoal : s.embed.goal.toValue = s.goal.toValue := s.goal.toValue_embed
  rw [toValue, toValue, hhypotheses, hgoal]
  rfl

/-- The image of a node. -/
def Node.embed (n : Node) : Node Value :=
  { id := .str n.id
    sequent := n.sequent.embed
    rule := n.rule
    parent := n.parent.map .str
    backLink := n.backLink.map .str }

lemma Node.embed_injective : Function.Injective Node.embed := by
  have hname : Function.Injective (Option.map Value.str) :=
    Option.map_injective Value.str_injective
  rintro ⟨id, sequent, rule, parent, link⟩ ⟨id', sequent', rule', parent', link'⟩ h
  simp only [embed, mk.injEq, Value.str.injEq] at h
  obtain ⟨hid, hsequent, hrule, hparent, hlink⟩ := h
  rw [hid, Sequent.embed_injective hsequent, hrule, hname hparent, hname hlink]

/-! ### Trees -/

namespace Derivation

/-- The image of a tree. -/
def embed (d : Derivation) : Derivation Value := d.mapLabels Node.embed

lemma embed_node (label : Node) (children : List Derivation) :
    (node label children).embed = node label.embed (children.map embed) :=
  mapLabels_node Node.embed label children

lemma embed_injective : Function.Injective embed := by
  intro d
  induction d using ind with
  | node label children ih =>
      rintro ⟨label', children'⟩ h
      simp only [embed_node, node.injEq] at h
      obtain ⟨hlabel, hchildren⟩ := h
      rw [Node.embed_injective hlabel]
      congr 1
      refine List.ext_getElem? fun i => ?_
      have hi := congrArg (fun ds => ds[i]?) hchildren
      simp only [List.getElem?_map] at hi
      cases hc : children[i]? with
      | none =>
          rw [hc, Option.map_none, eq_comm, Option.map_eq_none_iff] at hi
          exact hi.symm
      | some c =>
          rw [hc, Option.map_some, eq_comm, Option.map_eq_some_iff] at hi
          obtain ⟨c', hc', heq⟩ := hi
          rw [hc', ih c (List.mem_of_getElem? hc) heq.symm]

lemma nodes_embed (d : Derivation) : d.embed.nodes = d.nodes.map Node.embed :=
  nodes_mapLabels Node.embed d

lemma at?_embed (d : Derivation) (q : Position) : d.embed.at? q = (d.at? q).map embed :=
  at?_mapLabels Node.embed d q

lemma label_embed (d : Derivation) : d.embed.label = d.label.embed := label_mapLabels Node.embed d

lemma openNodes_embed (d : Derivation) : d.embed.openNodes = d.openNodes.map Node.embed := by
  rw [openNodes, nodes_embed, List.filter_map]
  rfl

lemma isComplete_embed (d : Derivation) : d.embed.isComplete = d.isComplete :=
  isComplete_mapLabels (f := Node.embed) (fun _ => rfl) (fun _ => Option.isSome_map) d

lemma entries_embed (d : Derivation) (position : Position) :
    d.embed.entries position = (d.entries position).map fun entry => (.str entry.1, entry.2) :=
  entries_mapLabels (f := Node.embed) (fun _ => rfl) d position

lemma entriesOfAll_embed (position : Position) (i : Nat) (ds : List Derivation) :
    entriesOfAll position i (ds.map embed) =
      (entriesOfAll position i ds).map fun entry => (.str entry.1, entry.2) :=
  entriesOfAll_map (fun d _ => d.entries_embed) position i

lemma relink_embed (d : Derivation) (parent : Option Text) :
    d.embed.relink (parent.map .str) = (d.relink parent).embed := by
  induction d using ind generalizing parent with
  | node label children ih =>
      rw [embed_node, relink_node, relink_node, embed_node, List.map_map, List.map_map]
      congr 1
      exact List.map_congr_left fun c hc => ih c hc (some label.id)

/-- Where links stand does not depend on names. -/
lemma LinksAtClosedLeaves.embed {d : Derivation} (h : d.LinksAtClosedLeaves) :
    d.embed.LinksAtClosedLeaves := by
  intro q e he hlink
  rw [at?_embed, Option.map_eq_some_iff] at he
  obtain ⟨⟨label, children⟩, hd, rfl⟩ := he
  rw [embed_node] at hlink ⊢
  obtain ⟨hclosed, hchildren⟩ := h q _ hd (Option.isSome_map.symm.trans hlink)
  refine ⟨hclosed, ?_⟩
  obtain rfl : children = [] := hchildren
  rfl

lemma toValue_embed (d : Derivation) : d.embed.toValue = d.toValue := by
  induction d using ind with
  | node label children ih =>
      have hall : toValues (children.map embed) = toValues children := by
        induction children with
        | nil => rfl
        | cons c rest ihrest =>
            rw [List.map_cons, toValues, toValues, ih c List.mem_cons_self,
              ihrest fun c' hc' => ih c' (List.mem_cons_of_mem c hc')]
      have hmember (key : Text) (name : Option Text) :
          optionalMember key (name.map Value.str) = optionalMember key name := by
        cases name <;> rfl
      have hsequent : label.embed.sequent.toValue = label.sequent.toValue :=
        label.sequent.toValue_embed
      rw [embed_node, toValue, toValue, hall, hsequent]
      simp only [Node.embed, hmember]
      rfl

end Derivation

/-! ### Proofs -/

namespace Proof

/-- The image of a proof. -/
def embed (p : Proof) : Proof Value := { tree := p.tree.embed, index := p.index.embed fun q => q }

lemma embed_injective : Function.Injective embed := by
  rintro ⟨tree, index⟩ ⟨tree', index'⟩ h
  simp only [embed, mk.injEq] at h
  rw [Derivation.embed_injective h.1, Table.embed_injective (fun _ _ => id) h.2]

lemma ofTree_embed (d : Derivation) : ofTree d.embed = (ofTree d).embed := by
  have hindex : Table.ofEntries (d.embed.entries []) =
      (Table.ofEntries (d.entries [])).embed fun q => q := by
    rw [Derivation.entries_embed]
    exact Table.insertAll_embed (fun q => q) .empty (d.entries [])
  rw [ofTree, ofTree, embed, hindex]
  congr 1
  exact d.relink_embed none

lemma reindex_embed (p : Proof) : p.embed.reindex = p.reindex.embed := ofTree_embed p.tree

lemma toValue_embed (p : Proof) : p.embed.toValue = p.toValue := by
  have htree : p.embed.tree.toValue = p.tree.toValue := p.tree.toValue_embed
  rw [toValue, toValue, htree]

lemma save_embed (p : Proof) : p.embed.save = p.save := by
  rw [save, save, toValue_embed]

/-! ### Look-ups -/

variable (p : Proof) (id : Text)

lemma find?_index_embed : p.embed.index.find? (.str id) = p.index.find? id := by
  have hfind : p.embed.index.find? (.str id) = (p.index.find? id).map fun q => q :=
    Table.find?_embed (fun q => q) p.index id
  rw [hfind, Option.map_id']

lemma find?_embed : p.embed.find? (.str id) = (p.find? id).map Derivation.embed := by
  rw [find?, find?, find?_index_embed, Option.map_bind]
  congr 1
  funext q
  exact p.tree.at?_embed q

lemma node?_embed : p.embed.node? (.str id) = (p.node? id).map Node.embed := by
  rw [node?, node?, find?_embed, Option.map_map, Option.map_map]
  congr 1
  funext d
  exact d.label_embed

lemma openNode?_embed : p.embed.openNode? (.str id) = (p.openNode? id).map Node.embed := by
  rw [openNode?, openNode?, node?_embed, Option.filter_map]
  rfl

lemma walkUp_embed (bound : Nat) (parent : Option Text) :
    p.embed.walkUp bound (parent.map .str) = (p.walkUp bound parent).map Node.embed := by
  induction bound generalizing parent with
  | zero => rfl
  | succ bound ih =>
      cases parent with
      | none => rfl
      | some id =>
          rw [Option.map_some, walkUp, walkUp, node?_embed]
          cases p.node? id with
          | none => rfl
          | some node => exact congrArg (List.cons node.embed) (ih node.parent)

lemma parent_embed : (p.embed.node? (.str id)).bind Node.parent =
    ((p.node? id).bind Node.parent).map .str := by
  rw [node?_embed]
  cases p.node? id <;> rfl

/-- The nodes above are the images of the nodes above. -/
lemma ancestors_embed : p.embed.ancestors (.str id) = (p.ancestors id).map Node.embed := by
  rw [ancestors, ancestors, parent_embed, ← walkUp_embed]
  congr 1
  exact Table.size_embed _ p.index

lemma pathToRoot_embed : p.embed.pathToRoot (.str id) = (p.pathToRoot id).map .str := by
  have hcontains : p.embed.index.contains (.str id) = p.index.contains id :=
    Table.contains_embed _ p.index id
  rw [pathToRoot, pathToRoot, hcontains, ancestors_embed, List.map_map]
  split_ifs
  · rw [List.map_cons, List.map_map]
    rfl
  · rfl

/-- The nearest ancestor with the same goal is the image of the nearest one. -/
lemma matchingAncestor?_embed :
    p.embed.matchingAncestor? (.str id) = (p.matchingAncestor? id).map Node.embed := by
  rw [matchingAncestor?, matchingAncestor?, node?_embed, ancestors_embed]
  cases p.node? id with
  | none => rfl
  | some node =>
      rw [Option.map_some, Option.bind_some, Option.bind_some, List.find?_map]
      congr 2
      funext ancestor
      exact Equation.equals_embed ancestor.sequent.goal node.sequent.goal

lemma isValidLink_embed (node : Node) (link : Text) :
    p.embed.isValidLink node.embed (.str link) = p.isValidLink node link := by
  have hfind : ((p.ancestors node.id).map Node.embed).find?
      (fun ancestor => Naming.same ancestor.id (Value.str link)) =
        ((p.ancestors node.id).find? fun ancestor => ancestor.id == link).map Node.embed := by
    rw [List.find?_map]
    congr 2
    funext ancestor
    exact Naming.same_str ancestor.id link
  have hancestors : p.embed.ancestors node.embed.id = (p.ancestors node.id).map Node.embed :=
    p.ancestors_embed node.id
  simp only [isValidLink, hancestors, hfind, Naming.same_text]
  cases (p.ancestors node.id).find? fun ancestor => ancestor.id == link with
  | none => rfl
  | some target => exact Equation.equals_embed target.sequent.goal node.sequent.goal

/-- The audit of links finds the same nodes. -/
lemma invalidBackLinks_embed : p.embed.invalidBackLinks = p.invalidBackLinks.map .str := by
  have hnodes : p.embed.tree.nodes = p.tree.nodes.map Node.embed := p.tree.nodes_embed
  rw [invalidBackLinks, invalidBackLinks, hnodes, List.filter_map, List.map_map, List.map_map]
  refine congrArg (List.map (Node.id ∘ Node.embed)) (List.filter_congr fun node _ => ?_)
  rw [Function.comp_apply]
  cases hlink : node.backLink with
  | none => simp [Node.embed, hlink]
  | some link =>
      have hembed : node.embed.backLink = some (.str link) := by
        rw [Node.embed, hlink, Option.map_some]
      simp only [hembed, isValidLink_embed]

lemma openNodes_embed : p.embed.openNodes = p.openNodes.map Node.embed := p.tree.openNodes_embed

lemma isComplete_embed : p.embed.isComplete = p.isComplete := p.tree.isComplete_embed

end Proof

end TreeCalculus
