import Mathlib.Tactic.Lemma
import TreeCalculus.Proof.Derivation

/-!
Proof trees: induction, positions, and conditions on single nodes.

Changing the part of a tree at a position leaves every node away from it alone, and the nodes above
keep their labels. So a condition that relates a node to the sequents of its children holds of the
changed tree as soon as it holds of the new part and the root of the part keeps its sequent.

* `Derivation.ind`: induction over trees.
* `Derivation.mem_nodes_node`, `Derivation.isComplete_node`: traversals of a node and its children.
* `Derivation.at?_append`, `Derivation.at?_modify_append`, `Derivation.outline_at?_modify`: the
  parts of a changed tree.
* `Derivation.modify_comm`: changes in separate places commute.
* `Derivation.mapLabels`: trees with other labels in the same places.
* `Derivation.Locally`, `Derivation.Locally.modify`: conditions on a node and the sequents of its
  children, throughout a tree.
* `Derivation.not_isOpen_of_isComplete`: complete trees without links have no open node.
-/

namespace TreeCalculus.Derivation

variable {ν : Type}

/-- Induction over trees: a property holds of every tree once it passes from the children to their
parent. -/
@[elab_as_elim]
theorem ind {motive : Derivation ν → Prop}
    (node : ∀ label children, (∀ c ∈ children, motive c) → motive (node label children)) :
    ∀ d, motive d
  | .node label children => node label children fun c _ => ind node c

/-! ### Traversals -/

lemma map_snd_rowsOfAll {cs : List (Derivation ν)}
    (h : ∀ c ∈ cs, ∀ k, (c.rows k).map Prod.snd = c.nodes) (k : Nat) :
    (rowsOfAll k cs).map Prod.snd = cs.flatMap nodes := by
  induction cs with
  | nil => simp [rowsOfAll]
  | cons c cs ih =>
      rw [rowsOfAll, List.map_append, List.flatMap_cons, h c (by simp) k,
        ih fun c' hc' => h c' (by simp [hc'])]

/-- The depth from which rows are counted does not matter for their nodes. -/
lemma map_snd_rows (d : Derivation ν) (k : Nat) : (d.rows k).map Prod.snd = d.nodes := by
  induction d using ind generalizing k with
  | node label children ih =>
      rw [nodes, rows, rows, List.map_cons, List.map_cons, map_snd_rowsOfAll ih,
        map_snd_rowsOfAll ih]

/-- The nodes of a tree are its root and the nodes of its children. -/
lemma nodes_node (label : Node ν) (children : List (Derivation ν)) :
    (node label children).nodes = label :: children.flatMap nodes := by
  rw [nodes, rows, List.map_cons, map_snd_rowsOfAll fun c _ => map_snd_rows c]

lemma mem_nodes_node {n label : Node ν} {children : List (Derivation ν)} :
    n ∈ (node label children).nodes ↔ n = label ∨ ∃ c ∈ children, n ∈ c.nodes := by
  rw [nodes_node, List.mem_cons, List.mem_flatMap]

/-- A tree is complete iff its root is linked back, or is closed and has complete children. -/
lemma isComplete_node {label : Node ν} {children : List (Derivation ν)} :
    (node label children).isComplete ↔
      label.backLink.isSome ∨ (label.rule.isSome ∧ ∀ c ∈ children, c.isComplete) := by
  have key : areComplete children ↔ ∀ c ∈ children, c.isComplete := by
    induction children with
    | nil => simp [areComplete]
    | cons c cs ih => simp [areComplete, ih]
  rw [isComplete, Bool.or_eq_true, Bool.and_eq_true, key]

/-! ### Positions -/

@[simp] lemma at?_nil (d : Derivation ν) : d.at? [] = some d := by
  rw [at?]

@[simp] lemma at?_node_cons (label : Node ν) (children : List (Derivation ν)) (i : Nat)
    (q : Position) : (node label children).at? (i :: q) = children[i]?.bind fun c => c.at? q := by
  rw [at?]

lemma at?_cons_eq_some {label : Node ν} {children : List (Derivation ν)} {e : Derivation ν}
    {i : Nat} {q : Position} : (node label children).at? (i :: q) = some e ↔
      ∃ c, children[i]? = some c ∧ c.at? q = some e := by
  rw [at?_node_cons, Option.bind_eq_some_iff]

@[simp] lemma modify_nil (f : Derivation ν → Derivation ν) (d : Derivation ν) :
    d.modify f [] = f d := by
  rw [modify]

@[simp] lemma modify_node_cons (f : Derivation ν → Derivation ν) (label : Node ν)
    (children : List (Derivation ν)) (i : Nat) (q : Position) :
    (node label children).modify f (i :: q) =
      node label (children.modify i fun c => c.modify f q) := by
  rw [modify]

/-- Going down along `p ++ q` is going down along `p` and then along `q`. -/
lemma at?_append (d : Derivation ν) (p q : Position) :
    d.at? (p ++ q) = (d.at? p).bind fun e => e.at? q := by
  induction p generalizing d with
  | nil => simp
  | cons i p ih =>
      cases d with
      | node label children =>
          rw [List.cons_append, at?_node_cons, at?_node_cons]
          cases children[i]? with
          | none => rfl
          | some c => exact ih c

/-- The parts below the place of a change are those of the changed part. -/
lemma at?_modify_append (f : Derivation ν → Derivation ν) (d : Derivation ν) (p q : Position) :
    (d.modify f p).at? (p ++ q) = (d.at? p).bind fun e => (f e).at? q := by
  induction p generalizing d with
  | nil => simp
  | cons i p ih =>
      cases d with
      | node label children =>
          rw [modify_node_cons, List.cons_append, at?_node_cons, at?_node_cons,
            List.getElem?_modify]
          cases children[i]? with
          | none => rfl
          | some c => simpa using ih c

lemma at?_modify_self (f : Derivation ν → Derivation ν) (d : Derivation ν) (p : Position) :
    (d.modify f p).at? p = (d.at? p).map f := by
  have happend := at?_modify_append f d p []
  rw [List.append_nil] at happend
  rw [happend]
  cases d.at? p with
  | none => rfl
  | some e => exact at?_nil (f e)

/-- Changes in places of which none is above the other can be made in either order. -/
lemma modify_comm (f g : Derivation ν → Derivation ν) {d : Derivation ν} {p q : Position}
    (hpq : ¬ p <+: q) (hqp : ¬ q <+: p) :
    (d.modify f p).modify g q = (d.modify g q).modify f p := by
  induction p generalizing d q with
  | nil => exact absurd List.nil_prefix hpq
  | cons i p ih =>
      cases q with
      | nil => exact absurd List.nil_prefix hqp
      | cons j q =>
          cases d with
          | node l children =>
              rw [modify_node_cons, modify_node_cons, modify_node_cons, modify_node_cons]
              by_cases hij : i = j
              · subst hij
                have hswap : ∀ c : Derivation ν,
                    (c.modify f p).modify g q = (c.modify g q).modify f p :=
                  fun c => ih (fun h => hpq (List.cons_prefix_cons.mpr ⟨rfl, h⟩))
                    fun h => hqp (List.cons_prefix_cons.mpr ⟨rfl, h⟩)
                rw [List.modify_modify_eq, List.modify_modify_eq]
                congr 2
                exact funext hswap
              · rw [List.modify_modify_ne _ _ _ hij]

/-- The ids of the nodes right below the root. -/
def childIds (d : Derivation ν) : List ν := d.children.map fun c => c.label.id

lemma id_modify {f : Derivation ν → Derivation ν} (hf : ∀ e, (f e).label.id = e.label.id)
    (d : Derivation ν) (p : Position) : (d.modify f p).label.id = d.label.id := by
  obtain ⟨label, children⟩ := d
  cases p with
  | nil => rw [modify_nil, hf]
  | cons i p => rw [modify_node_cons, Derivation.label, Derivation.label]

/-- Nodes that are not below the place of a change keep their labels and the ids of their
children, if the change keeps the id of the changed node. -/
lemma outline_at?_modify {f : Derivation ν → Derivation ν} (hf : ∀ e, (f e).label.id = e.label.id)
    {d : Derivation ν} {p q : Position} (h : ¬ p <+: q) :
    ((d.modify f p).at? q).map (fun e => (e.label, e.childIds)) =
      (d.at? q).map fun e => (e.label, e.childIds) := by
  induction p generalizing d q with
  | nil => exact absurd List.nil_prefix h
  | cons i p ih =>
      obtain ⟨l, children⟩ := d
      cases q with
      | nil =>
          have hids : (node l (children.modify i fun c => c.modify f p)).childIds =
              (node l children).childIds := by
            refine List.ext_getElem? fun j => ?_
            rw [childIds, childIds, Derivation.children, Derivation.children, List.getElem?_map,
              List.getElem?_map, List.getElem?_modify]
            by_cases hij : i = j
            · cases children[j]? <;> simp [hij, id_modify hf]
            · cases children[j]? <;> simp [hij]
          rw [modify_node_cons, at?_nil, at?_nil, Option.map_some, Option.map_some, hids]
          rfl
      | cons j q =>
          rw [modify_node_cons, at?_node_cons, at?_node_cons, List.getElem?_modify]
          cases hc : children[j]? with
          | none => rfl
          | some c =>
              by_cases hij : i = j
              · subst hij
                simpa using ih fun hpq => h (List.cons_prefix_cons.mpr ⟨rfl, hpq⟩)
              · simp [hij]

/-! ### Changed labels -/

section MapLabels

variable {μ : Type} {f : Node ν → Node μ}

mutual

/-- The tree in which the label of every node is changed by `f`. -/
def mapLabels (f : Node ν → Node μ) : Derivation ν → Derivation μ
  | node label children => node (f label) (mapAllLabels f children)

/-- Several trees in which the label of every node is changed by `f`. -/
def mapAllLabels (f : Node ν → Node μ) : List (Derivation ν) → List (Derivation μ)
  | [] => []
  | d :: rest => mapLabels f d :: mapAllLabels f rest

end

lemma mapLabels_node (f : Node ν → Node μ) (label : Node ν) (children : List (Derivation ν)) :
    (node label children).mapLabels f = node (f label) (children.map (mapLabels f)) := by
  have hall : mapAllLabels f children = children.map (mapLabels f) := by
    induction children with
    | nil => rw [mapAllLabels, List.map_nil]
    | cons d rest ih => rw [mapAllLabels, List.map_cons, ih]
  rw [mapLabels, hall]

lemma label_mapLabels (f : Node ν → Node μ) (d : Derivation ν) :
    (d.mapLabels f).label = f d.label := by
  obtain ⟨label, children⟩ := d
  rw [mapLabels_node, Derivation.label, Derivation.label]

lemma at?_mapLabels (f : Node ν → Node μ) (d : Derivation ν) (q : Position) :
    (d.mapLabels f).at? q = (d.at? q).map (mapLabels f) := by
  induction q generalizing d with
  | nil => rw [at?_nil, at?_nil, Option.map_some]
  | cons i q ih =>
      obtain ⟨label, children⟩ := d
      rw [mapLabels_node, at?_node_cons, at?_node_cons, List.getElem?_map]
      cases children[i]? with
      | none => rfl
      | some c => exact ih c

/-- A change of a part becomes a change of the part of the other tree. -/
lemma mapLabels_modify {g : Derivation ν → Derivation ν} {h : Derivation μ → Derivation μ}
    (hg : ∀ e, (g e).mapLabels f = h (e.mapLabels f)) (d : Derivation ν) (q : Position) :
    (d.modify g q).mapLabels f = (d.mapLabels f).modify h q := by
  induction q generalizing d with
  | nil => rw [modify_nil, modify_nil, hg]
  | cons i q ih =>
      obtain ⟨label, children⟩ := d
      rw [modify_node_cons, mapLabels_node, mapLabels_node, modify_node_cons]
      congr 1
      refine List.ext_getElem? fun j => ?_
      rw [List.getElem?_map, List.getElem?_modify, List.getElem?_modify, List.getElem?_map]
      by_cases hij : i = j
      · cases children[j]? <;> simp [hij, ih]
      · cases children[j]? <;> simp [hij]

lemma rows_mapLabels (f : Node ν → Node μ) (d : Derivation ν) (k : Nat) :
    (d.mapLabels f).rows k = (d.rows k).map (Prod.map id f) := by
  induction d using ind generalizing k with
  | node label children ih =>
      have hall : rowsOfAll (k + 1) (children.map (mapLabels f)) =
          (rowsOfAll (k + 1) children).map (Prod.map id f) := by
        induction children with
        | nil => rfl
        | cons c rest ihrest =>
            rw [List.map_cons, rowsOfAll, rowsOfAll, List.map_append, ih c List.mem_cons_self,
              ihrest fun c' hc' => ih c' (List.mem_cons_of_mem c hc')]
      rw [mapLabels_node, rows, rows, hall, List.map_cons, Prod.map_apply, id]

lemma nodes_mapLabels (f : Node ν → Node μ) (d : Derivation ν) :
    (d.mapLabels f).nodes = d.nodes.map f := by
  rw [nodes, nodes, rows_mapLabels, List.map_map, List.map_map]
  rfl

/-- Whether a tree is complete does not depend on names. -/
lemma isComplete_mapLabels (hrule : ∀ n, (f n).rule.isSome = n.rule.isSome)
    (hlink : ∀ n, (f n).backLink.isSome = n.backLink.isSome) (d : Derivation ν) :
    (d.mapLabels f).isComplete = d.isComplete := by
  induction d using ind with
  | node label children ih =>
      rw [mapLabels_node, Bool.eq_iff_iff, isComplete_node, isComplete_node, hrule, hlink]
      simp only [List.forall_mem_map]
      exact or_congr_right (and_congr_right fun _ => forall₂_congr fun c hc => by rw [ih c hc])

end MapLabels

/-! ### Conditions on a node and its children -/

/-- A condition on a node and the sequents of its children holds throughout a tree. -/
inductive Locally (P : Node → List Sequent → Prop) : Derivation → Prop where
  | node {label : Node} {children : List Derivation} :
      P label (children.map fun c => c.label.sequent) → (∀ c ∈ children, Locally P c) →
      Locally P (node label children)

/-- A condition on single nodes that holds throughout a tree holds of all its nodes. -/
lemma Locally.of_mem_nodes {Q : Node → Prop} {d : Derivation}
    (hd : d.Locally fun label _ => Q label) {n : Node} (hn : n ∈ d.nodes) : Q n := by
  induction hd with
  | node hlabel _ ih =>
      obtain rfl | ⟨c, hc, hn⟩ := mem_nodes_node.mp hn
      · exact hlabel
      · exact ih c hc hn

/-- A condition that holds throughout a tree holds throughout its parts. -/
lemma Locally.at? {P : Node → List Sequent → Prop} {d e : Derivation} {p : Position}
    (hd : Locally P d) (he : d.at? p = some e) : Locally P e := by
  induction p generalizing d with
  | nil =>
      rw [at?_nil] at he
      cases he
      exact hd
  | cons i p ih =>
      obtain @⟨label, children, -, hchildren⟩ := hd
      rw [at?_node_cons] at he
      obtain ⟨c, hc, hce⟩ := Option.bind_eq_some_iff.mp he
      exact ih (hchildren c (List.mem_of_getElem? hc)) hce

/-- A condition holds throughout a changed tree if it holds throughout the changed part, and the
root of that part keeps its sequent. -/
lemma Locally.modify {P : Node → List Sequent → Prop} {f : Derivation → Derivation}
    {d e : Derivation} {p : Position} (hd : Locally P d) (he : d.at? p = some e)
    (hf : Locally P (f e)) (hs : (f e).label.sequent = e.label.sequent) :
    Locally P (d.modify f p) ∧ (d.modify f p).label.sequent = d.label.sequent := by
  induction p generalizing d with
  | nil =>
      rw [at?_nil] at he
      cases he
      rw [modify_nil]
      exact ⟨hf, hs⟩
  | cons i p ih =>
      obtain @⟨label, children, hlabel, hchildren⟩ := hd
      rw [at?_node_cons] at he
      obtain ⟨c, hc, hce⟩ := Option.bind_eq_some_iff.mp he
      obtain ⟨hi, hci⟩ := List.getElem?_eq_some_iff.mp hc
      obtain ⟨hnew, hsequent⟩ := ih (hchildren c (List.mem_of_getElem? hc)) hce
      rw [modify_node_cons, List.modify_eq_set, hc, Option.getD_some]
      refine ⟨.node ?_ ?_, rfl⟩
      · -- the changed child has the sequent that it had
        have hsame : children.set i c = children := by rw [← hci, List.set_getElem_self]
        have hmap := List.map_set (f := fun c : Derivation => c.label.sequent) (l := children)
          (i := i) (a := c)
        rw [List.map_set, hsequent, ← hmap, hsame]
        exact hlabel
      · intro c' hc'
        obtain hc' | rfl := List.mem_or_eq_of_mem_set hc'
        · exact hchildren c' hc'
        · exact hnew

/-! ### Progress -/

/-- A complete tree without links has no open node. -/
lemma not_isOpen_of_isComplete {d : Derivation} (hc : d.isComplete)
    (hlinks : ∀ n ∈ d.nodes, n.backLink = none) : ∀ n ∈ d.nodes, ¬ n.isOpen := by
  induction d using ind with
  | node label children ih =>
      have hlabel : label.backLink = none := hlinks label (mem_nodes_node.mpr (.inl rfl))
      rw [isComplete_node, hlabel] at hc
      obtain hc | ⟨hrule, hchildren⟩ := hc
      · cases hc
      · intro n hn
        obtain rfl | ⟨c, hc, hn⟩ := mem_nodes_node.mp hn
        · intro hopen
          rw [Node.isOpen, Option.isNone_iff_eq_none] at hopen
          rw [hopen] at hrule
          cases hrule
        · exact ih c hc (hchildren c hc)
            (fun m hm => hlinks m (mem_nodes_node.mpr (.inr ⟨c, hc, hm⟩))) n hn

end TreeCalculus.Derivation
