import TreeCalculus.Document.Decode
import TreeCalculus.Proofs.JsonText
import TreeCalculus.Proofs.Naming

/-!
Saved proofs are loaded again.

Each reader undoes the writer of the same part. The record of the parent is read with a node, and
is then lost: the tree determines it, and the proof of a tree records it anew. So a saved tree
comes back up to these records, and loading a saved proof is rebuilding its index and its records.
A link to `null` is no link; no tree that was read has one.

* `Document.termOf_toValue`, `Document.equationOf_toValue`, `Document.sequentOf_toValue`: the
  parts of a node.
* `Derivation.exists_derivationOf_toValue`: trees, up to the record of parents.
* `Proof.adopt_congr`: the record of parents that was read does not matter.
* `Derivation.plain_toValue`: what is written for names that are texts has no numbers and repeats
  no key.
* `Proof.ofValue_toValue`, `Proof.load_save`: whole proofs.
-/

namespace TreeCalculus

open Json (Value)

namespace Document

/-- Steps of reading one after the other succeed iff each of them does. -/
lemma bind_eq_ok {α β : Type} {x : Except DecodeError α} {f : α → Except DecodeError β} {b : β} :
    x >>= f = .ok b ↔ ∃ a, x = .ok a ∧ f a = .ok b := by
  cases x <;> simp [bind, Except.bind]

/-! ### Terms and sequents -/

lemma termOf_toValue (t : Term Value) : termOf t.toValue = .ok t := by
  induction t with
  | leaf => rfl
  | var name => rfl
  | ref name => rfl
  | app left right hleft hright =>
      rw [Term.toValue, termOf, termsOf, termsOf, termsOf, termsOf, hleft, hright]
      rfl

lemma equationOf_toValue (e : Equation Value) : equationOf e.toValue = .ok e := by
  have hlhs : field "lhs" e.toValue = .ok e.lhs.toValue := rfl
  have hrhs : field "rhs" e.toValue = .ok e.rhs.toValue := rfl
  rw [equationOf, hlhs, hrhs]
  simp only [bind, Except.bind, termOf_toValue]
  rfl

lemma equationsOf_toValue (es : List (Equation Value)) :
    equationsOf (.arr (es.map Equation.toValue)) = .ok es := by
  have hparts : partsOf (.arr (es.map Equation.toValue)) = .ok (es.map Equation.toValue) := rfl
  have hall : (es.map Equation.toValue).mapM equationOf = .ok es := by
    induction es with
    | nil => rfl
    | cons e es ih =>
        rw [List.map_cons, List.mapM_cons, equationOf_toValue, ih rfl]
        rfl
  rw [equationsOf, hparts]
  exact hall

lemma sequentOf_toValue (s : Sequent Value) : sequentOf s.toValue = .ok s := by
  have hid : field "id" s.toValue = .ok s.id := rfl
  have hhypotheses : field "hypotheses" s.toValue =
      .ok (.arr (s.hypotheses.map Equation.toValue)) := rfl
  have hgoal : field "goal" s.toValue = .ok s.goal.toValue := rfl
  rw [sequentOf, hid, hhypotheses, hgoal]
  simp only [bind, Except.bind, equationsOf_toValue, equationOf_toValue]
  rfl

lemma ruleOf_ruleValue (rule : Option Rule) : ruleOf (some (ruleValue rule)) = .ok rule := by
  obtain _ | rule := rule
  · rfl
  · cases rule <;> rfl

/-- A node is read from what its members give. -/
lemma derivationOf_obj {fields : List (Text × Value)} {id : Value} {sequent : Sequent Value}
    {rule : Option Rule} {children : List (Derivation Value)} {parent backLink : Option Value}
    (hid : field "id" (.obj fields) = .ok id)
    (hsequent : field "sequent" (.obj fields) = .ok sequent.toValue)
    (hrule : ruleOf (fields.lookup (Text.ofString "rule")) = .ok rule)
    (hchildren : (forestsOf fields).lookup (Text.ofString "children") = some (.ok children))
    (hparent : optionalName "parentId" fields = parent)
    (hlink : optionalName "backLinkTo" fields = backLink) :
    derivationOf (.obj fields) = .ok (.node { id, sequent, rule, parent, backLink } children) := by
  rw [derivationOf, hid, hsequent, hrule, hchildren, hparent, hlink]
  simp only [bind, Except.bind, sequentOf_toValue]
  rfl

end Document

/-! ### Trees -/

namespace Derivation

open Document

/-- A saved tree is read back, up to the record of parents. -/
lemma exists_derivationOf_toValue (d : Derivation Value)
    (hlinks : ∀ n ∈ d.nodes, n.backLink ≠ some .null) :
    ∃ e, derivationOf d.toValue = .ok e ∧ e.relink none = d.relink none := by
  suffices h : ∃ e, derivationOf d.toValue = .ok e ∧
      ∀ parent, e.relink parent = d.relink parent by
    obtain ⟨e, he, hrelink⟩ := h
    exact ⟨e, he, hrelink none⟩
  induction d using ind with
  | node label children ih =>
      have hchildren : ∃ es, derivationsOf (toValues children) = .ok es ∧
          ∀ parent, relinkAll parent es = relinkAll parent children := by
        have hbelow : ∀ c ∈ children, ∀ n ∈ c.nodes, n.backLink ≠ some .null :=
          fun c hc n hn => hlinks n (mem_nodes_node.mpr (.inr ⟨c, hc, hn⟩))
        clear hlinks
        induction children with
        | nil => exact ⟨[], rfl, fun _ => rfl⟩
        | cons c cs ihcs =>
            obtain ⟨e, he, hrelink⟩ := ih c List.mem_cons_self (hbelow c List.mem_cons_self)
            obtain ⟨es, hes, hrelinks⟩ := ihcs (fun c' hc' => ih c' (List.mem_cons_of_mem c hc'))
              fun c' hc' => hbelow c' (List.mem_cons_of_mem c hc')
            refine ⟨e :: es, ?_, fun parent => ?_⟩
            · rw [toValues, derivationsOf, he, hes]
              rfl
            · rw [relinkAll, relinkAll, hrelink, hrelinks]
      obtain ⟨es, hes, hrelinks⟩ := hchildren
      have hlink : label.backLink.bind Naming.present = label.backLink := by
        have hroot := hlinks label (mem_nodes_node.mpr (.inl rfl))
        cases hcase : label.backLink with
        | none => rfl
        | some link => cases link <;> first | rfl | exact absurd hcase hroot
      refine ⟨.node { label with parent := label.parent.bind Naming.present } es, ?_,
        fun parent => ?_⟩
      · rw [toValue]
        refine derivationOf_obj rfl rfl (ruleOf_ruleValue label.rule) ?_ ?_ ?_
        · rw [← hes]
          rfl
        · cases label.parent <;> cases label.backLink <;> rfl
        · refine Eq.trans ?_ hlink
          cases label.parent <;> cases label.backLink <;> rfl
      · rw [relink, relink, hrelinks]

end Derivation

/-! ### What is written -/

lemma Term.plain_toValue (t : Term) : t.toValue.Plain := by
  induction t with
  | leaf => exact .obj (by decide) (by simp [Value.Plain.str])
  | var name => exact .obj (by simp [Text.ofString_inj]) (by simp [Value.Plain.str])
  | ref name => exact .obj (by simp [Text.ofString_inj]) (by simp [Value.Plain.str])
  | app left right hleft hright =>
      exact .obj (by simp [Text.ofString_inj]) (by simp [Value.Plain.str, hleft, hright])

lemma Equation.plain_toValue (e : Equation) : e.toValue.Plain :=
  .obj (by simp [Text.ofString_inj]) (by simp [Term.plain_toValue])

lemma Sequent.plain_toValue (s : Sequent) : s.toValue.Plain := by
  have hhypotheses : (Value.arr (s.hypotheses.map Equation.toValue)).Plain := by
    refine .arr fun v hv => ?_
    obtain ⟨h, -, rfl⟩ := List.mem_map.mp hv
    exact h.plain_toValue
  exact .obj (by simp [Text.ofString_inj])
    (by simp [Value.Plain.str, hhypotheses, Equation.plain_toValue])

lemma plain_ruleValue (rule : Option Rule) : (ruleValue rule).Plain := by
  cases rule with
  | none => exact .null
  | some rule => exact .str _

namespace Derivation

/-- What is written for a tree has no numbers and repeats no key. -/
lemma plain_toValue (d : Derivation) : d.toValue.Plain := by
  induction d using ind with
  | node label children ih =>
      have hchildren : ∀ v ∈ toValues children, v.Plain := by
        induction children with
        | nil => exact fun v hv => absurd hv List.not_mem_nil
        | cons c cs ihcs =>
            rw [toValues]
            refine List.forall_mem_cons.mpr ⟨ih c List.mem_cons_self, ?_⟩
            exact ihcs fun c' hc' => ih c' (List.mem_cons_of_mem c hc')
      rw [toValue]
      refine .obj ?_ ?_
      · cases label.parent <;> cases label.backLink <;> simp [optionalMember, Text.ofString_inj]
      · cases label.parent <;> cases label.backLink <;>
          simp [optionalMember, Value.Plain.str, Value.Plain.arr hchildren, plain_ruleValue,
            Sequent.plain_toValue]

end Derivation

/-! ### Proofs -/

namespace Proof

open Document

/-- Trees that agree up to the record of parents have the same ids. -/
lemma map_id_nodes_of_relink {ν : Type} [Naming ν] {d e : Derivation ν}
    (h : e.relink none = d.relink none) : e.nodes.map Node.id = d.nodes.map Node.id := by
  have hid (n : Node ν) (parent : Option ν) : { n with parent }.id = n.id := rfl
  rw [← Derivation.map_nodes_relink hid e none, h, Derivation.map_nodes_relink hid]

/-- Trees that agree up to the record of parents give the same proof. -/
lemma ofTree_congr {d e : Derivation Value} (h : e.relink none = d.relink none) :
    ofTree e = ofTree d := by
  rw [ofTree, ofTree, ← e.entries_relink none, h, d.entries_relink]

/-- The parents that were read do not matter, since the proof of a tree records them anew. -/
lemma adopt_congr {d e : Derivation Value} (h : e.relink none = d.relink none) :
    adopt e = adopt d := by
  rw [adopt, adopt, map_id_nodes_of_relink h, ofTree_congr h]

/-- A proof comes back from its value, if its ids can be looked up and no link leads to `null`. -/
lemma ofValue_toValue_of_links {p : Proof Value}
    (hids : Naming.firstUnhashable? (p.tree.nodes.map Node.id) = none)
    (hlinks : ∀ n ∈ p.tree.nodes, n.backLink ≠ some .null) :
    ofValue p.toValue = .ok p.reindex := by
  obtain ⟨e, he, hrelink⟩ := p.tree.exists_derivationOf_toValue hlinks
  have hroot : field "root" p.toValue = .ok p.tree.toValue := rfl
  have hadopt : adopt p.tree = .ok p.reindex := by
    simp only [adopt, hids]
    rfl
  rw [ofValue, hroot]
  simp only [bind, Except.bind, he]
  rw [adopt_congr hrelink, hadopt]

/-- A proof with texts for names comes back from its value. -/
lemma ofValue_toValue (p : Proof) : ofValue p.toValue = .ok p.reindex.embed := by
  have hnodes : p.embed.tree.nodes = p.tree.nodes.map Node.embed := p.tree.nodes_embed
  rw [← toValue_embed, ← reindex_embed]
  refine ofValue_toValue_of_links ?_ fun n hn => ?_
  · rw [hnodes, List.map_map]
    have hids := Naming.firstUnhashable?_map_str (p.tree.nodes.map Node.id)
    rwa [List.map_map] at hids
  · rw [hnodes] at hn
    obtain ⟨m, -, rfl⟩ := List.mem_map.mp hn
    intro hnull
    obtain ⟨link, -, hlink⟩ := Option.map_eq_some_iff.mp hnull
    cases hlink

/-- What is read is the proof of a tree. -/
lemma exists_ofTree_of_ofValue {v : Value} {p : Proof Value} (h : ofValue v = .ok p) :
    ∃ root tree, field "root" v = .ok root ∧ derivationOf root = .ok tree ∧
      Naming.firstUnhashable? (tree.nodes.map Node.id) = none ∧ p = ofTree tree := by
  simp only [ofValue, bind_eq_ok] at h
  obtain ⟨root, hroot, tree, htree, hadopt⟩ := h
  rw [adopt] at hadopt
  split at hadopt
  · cases hadopt
  · next hids => exact ⟨root, tree, hroot, htree, hids, (Except.ok.inj hadopt).symm⟩

lemma reindex_ofTree (tree : Derivation Value) : (ofTree tree).reindex = ofTree tree :=
  ofTree_congr (tree.relink_relink none none)

/-- What is read has a true index and record of parents. -/
lemma reindex_of_ofValue {v : Value} {p : Proof Value} (h : ofValue v = .ok p) : p.reindex = p := by
  obtain ⟨-, tree, -, -, -, rfl⟩ := exists_ofTree_of_ofValue h
  exact reindex_ofTree tree

/-- What is read with texts for names is the proof of a tree that has texts for names. -/
lemma exists_of_ofValue {v : Value} {p : Proof} (h : ofValue v = .ok p.embed) :
    ∃ tree, p = ofTree tree := by
  refine ⟨p.tree, embed_injective ?_⟩
  calc p.embed = p.embed.reindex := (reindex_of_ofValue h).symm
    _ = p.reindex.embed := p.reindex_embed

/-- The text of a saved proof holds the value that was written. -/
lemma parse_save (p : Proof) : Json.parse p.save = .ok p.toValue := by
  have hplain : p.toValue.Plain :=
    .obj (by simp) (by simp [Derivation.plain_toValue])
  exact Json.parse_render hplain

/-- **Saving and loading a proof** is rebuilding its index and its record of parents. -/
theorem load_save (p : Proof) : load p.save = .ok p.reindex.embed := by
  rw [load, parse_save]
  simp only [ofValue_toValue]
  rfl

end Proof

end TreeCalculus
