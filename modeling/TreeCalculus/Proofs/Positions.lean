import Mathlib.Data.List.Flatten
import Mathlib.Data.List.Nodup
import TreeCalculus.Proofs.Derivations

/-!
Proof trees seen through their positions.

Every traversal of a tree is described by the parts at its positions: the nodes, the entries for
an index, the record of parents, the depth and completeness. The nodes above a position are the
ones met on the way down to it.

* `Derivation.above`: the nodes above a position, nearest first.
* `Derivation.mem_nodes`, `Derivation.mem_entries`: what the traversals collect.
* `Derivation.exists_nodes_modify`: a change replaces nodes in place.
* `Position.Before`, `Derivation.pairwise_before`: the order in which a traversal meets positions;
  `Position.prefix_of_between`: those below a position follow it without a gap.
* `Derivation.parent_of_relink`, `Derivation.relink_modify`: the record of parents, and what a
  change keeps of it.
* `Derivation.length_lt_depth`, `Derivation.exists_length_eq_depth`: the depth is the length of
  the longest way down.
* `Derivation.isComplete_iff`, `Derivation.isComplete_iff_openNodes_eq_nil`: a tree is complete
  iff every open node stands at or below a link, and where links stand at closed leaves only, iff
  no node is open.
-/

namespace TreeCalculus

/-! ### The order of the traversal -/

namespace Position

/-- The order in which a traversal from the root meets positions: a node comes before those below
it, and children come in their order. -/
def Before (q r : Position) : Prop := List.Lex (· < ·) q r

lemma before_append (q : Position) (i : Nat) (r : Position) : Before q (q ++ i :: r) := by
  induction q with
  | nil => exact .nil
  | cons j q ih => exact .cons ih

lemma before_of_lt (q : Position) {i j : Nat} (hij : i < j) (r s : Position) :
    Before (q ++ i :: r) (q ++ j :: s) := by
  induction q with
  | nil => exact .rel hij
  | cons k q ih => exact .cons ih

/-- No position comes before itself. -/
lemma Before.irrefl {q : Position} (h : q.Before q) : False :=
  List.lex_irrefl Nat.lt_irrefl q h

/-- What is met between a position and one below it stands below it too. -/
lemma prefix_of_between {q r s : Position} (hqs : q <+: s) (hqr : q = r ∨ Before q r)
    (hrs : r = s ∨ Before r s) : q <+: r := by
  induction q generalizing r s with
  | nil => exact List.nil_prefix
  | cons i q ih =>
      obtain ⟨t, rfl⟩ := hqs
      obtain rfl | hqr := hqr
      · exact List.prefix_rfl
      · obtain rfl | hrs := hrs
        · exact List.prefix_append _ t
        · -- the first steps agree, since neither comparison can be decided there
          cases hqr with
          | rel hij =>
              cases hrs with
              | rel hji => exact absurd hij (Nat.lt_asymm hji)
              | cons _ => exact absurd hij (Nat.lt_irrefl _)
          | cons hqr =>
              cases hrs with
              | rel hii => exact absurd hii (Nat.lt_irrefl _)
              | cons hrs =>
                  exact List.cons_prefix_cons.mpr
                    ⟨rfl, ih (List.prefix_append q t) (.inr hqr) (.inr hrs)⟩

end Position

namespace Derivation

variable {ν : Type}

/-! ### The way down -/

/-- The nodes above a position, nearest first. -/
def above : Derivation ν → Position → List (Node ν)
  | _, [] => []
  | node label children, i :: rest =>
      (children[i]?.elim [] fun child => child.above rest) ++ [label]

@[simp] lemma above_nil (d : Derivation ν) : d.above [] = [] := by
  rw [above]

lemma above_mapLabels {μ : Type} (f : Node ν → Node μ) (d : Derivation ν) (q : Position) :
    (d.mapLabels f).above q = (d.above q).map f := by
  induction q generalizing d with
  | nil => rw [above_nil, above_nil, List.map_nil]
  | cons i q ih =>
      obtain ⟨label, children⟩ := d
      rw [mapLabels_node, above, above, List.getElem?_map, List.map_append]
      cases children[i]? with
      | none => rfl
      | some c => exact congrArg (· ++ [f label]) (ih c)

lemma above_cons {label : Node ν} {children : List (Derivation ν)} {c : Derivation ν} {i : Nat}
    (h : children[i]? = some c) (q : Position) :
    (node label children).above (i :: q) = c.above q ++ [label] := by
  rw [above, h, Option.elim_some]

/-- Above a child stand its parent and the nodes above that. -/
lemma above_concat {d e : Derivation ν} {q : Position} (h : d.at? q = some e) (i : Nat) :
    d.above (q ++ [i]) = e.label :: d.above q := by
  induction q generalizing d with
  | nil =>
      obtain rfl : d = e := Option.some.inj ((at?_nil d).symm.trans h)
      obtain ⟨label, children⟩ := d
      cases hc : children[i]? <;> simp [above, hc, Derivation.label]
  | cons j q ih =>
      obtain ⟨label, children⟩ := d
      obtain ⟨c, hc, he⟩ := at?_cons_eq_some.mp h
      rw [List.cons_append, above_cons hc, above_cons hc, ih he, List.cons_append]

lemma length_above {d e : Derivation ν} {q : Position} (h : d.at? q = some e) :
    (d.above q).length = q.length := by
  induction q generalizing d with
  | nil => simp
  | cons i q ih =>
      obtain ⟨label, children⟩ := d
      obtain ⟨c, hc, he⟩ := at?_cons_eq_some.mp h
      rw [above_cons hc, List.length_append, ih he]
      rfl

/-- Nodes above a position that is not below the place of a change stay as they are. -/
lemma above_modify (f : Derivation ν → Derivation ν) {d : Derivation ν} {p q : Position}
    (h : ¬ ∃ i r, q = p ++ i :: r) : (d.modify f p).above q = d.above q := by
  induction p generalizing d q with
  | nil =>
      cases q with
      | nil => simp
      | cons i r => exact absurd ⟨i, r, rfl⟩ h
  | cons j p ih =>
      obtain ⟨label, children⟩ := d
      cases q with
      | nil => simp
      | cons i q =>
          rw [modify_node_cons, above, above, List.getElem?_modify]
          cases hc : children[i]? with
          | none => rfl
          | some c =>
              by_cases hij : j = i
              · subst hij
                have hq : ¬ ∃ k r, q = p ++ k :: r := by
                  rintro ⟨k, r, rfl⟩
                  exact h ⟨k, r, rfl⟩
                simp [ih hq]
              · simp [hij]

/-! ### Traversals -/

/-- The nodes of a tree are the roots of its parts. -/
lemma mem_nodes {d : Derivation ν} {n : Node ν} :
    n ∈ d.nodes ↔ ∃ q e, d.at? q = some e ∧ e.label = n := by
  induction d using ind with
  | node label children ih =>
      rw [mem_nodes_node]
      constructor
      · rintro (rfl | ⟨c, hc, hn⟩)
        · exact ⟨[], _, at?_nil _, rfl⟩
        · obtain ⟨q, e, he, rfl⟩ := (ih c hc).mp hn
          obtain ⟨i, hi⟩ := List.mem_iff_getElem?.mp hc
          exact ⟨i :: q, e, at?_cons_eq_some.mpr ⟨c, hi, he⟩, rfl⟩
      · rintro ⟨q, e, he, rfl⟩
        cases q with
        | nil =>
            rw [at?_nil] at he
            cases he
            exact .inl rfl
        | cons i q =>
            obtain ⟨c, hi, he⟩ := at?_cons_eq_some.mp he
            have hc := List.mem_of_getElem? hi
            exact .inr ⟨c, hc, (ih c hc).mpr ⟨q, e, he, rfl⟩⟩

/-- The way down to a part is met in this order by a traversal in pre-order. -/
lemma reverse_above_sublist {d e : Derivation ν} {q : Position} (h : d.at? q = some e) :
    (e.label :: d.above q).reverse.Sublist d.nodes := by
  induction q generalizing d with
  | nil =>
      obtain rfl : d = e := Option.some.inj ((at?_nil d).symm.trans h)
      obtain ⟨label, children⟩ := d
      rw [above_nil, nodes_node]
      exact List.cons_sublist_cons.mpr (List.nil_sublist _)
  | cons i q ih =>
      obtain ⟨label, children⟩ := d
      obtain ⟨c, hc, he⟩ := at?_cons_eq_some.mp h
      have hchild : c.nodes.Sublist (children.flatMap nodes) := by
        have hsingle := List.singleton_sublist.mpr (List.mem_of_getElem? hc)
        simpa using hsingle.flatMap nodes
      rw [above_cons hc, ← List.cons_append, List.reverse_append, nodes_node]
      exact List.cons_sublist_cons.mpr ((ih he).trans hchild)

/-- Changing a part replaces its nodes in place: those before it and those behind it stay. -/
lemma exists_nodes_modify {d part : Derivation ν} {q : Position} (h : d.at? q = some part) :
    ∃ before behind, d.nodes = before ++ part.nodes ++ behind ∧
      ∀ f, (d.modify f q).nodes = before ++ (f part).nodes ++ behind := by
  induction q generalizing d with
  | nil =>
      obtain rfl : d = part := Option.some.inj ((at?_nil d).symm.trans h)
      exact ⟨[], [], by simp, fun f => by simp⟩
  | cons i q ih =>
      obtain ⟨label, children⟩ := d
      obtain ⟨c, hc, hpart⟩ := at?_cons_eq_some.mp h
      obtain ⟨before, behind, hnodes, hmodify⟩ := ih hpart
      obtain ⟨hi, rfl⟩ := List.getElem?_eq_some_iff.mp hc
      refine ⟨label :: (children.take i).flatMap nodes ++ before,
        behind ++ (children.drop (i + 1)).flatMap nodes, ?_, fun f => ?_⟩
      · have hsplit : children = children.take i ++ children[i] :: children.drop (i + 1) := by
          rw [List.getElem_cons_drop, List.take_append_drop]
        conv_lhs => rw [hsplit]
        simp only [nodes_node, List.flatMap_append, List.flatMap_cons, hnodes, List.append_assoc,
          List.cons_append]
      · rw [modify_node_cons, List.modify_eq_take_cons_drop hi]
        simp only [nodes_node, List.flatMap_append, List.flatMap_cons, hmodify, List.append_assoc,
          List.cons_append]

lemma mem_entriesOfAll {position q : Position} {x : ν} {i : Nat} {ds : List (Derivation ν)} :
    (x, q) ∈ entriesOfAll position i ds ↔
      ∃ (n : Nat) (d : Derivation ν), ds[n]? = some d ∧
        (x, q) ∈ d.entries (position ++ [i + n]) := by
  induction ds generalizing i with
  | nil => simp [entriesOfAll]
  | cons d ds ih =>
      rw [entriesOfAll, List.mem_append, ih]
      constructor
      · rintro (h | ⟨n, e, he, h⟩)
        · exact ⟨0, d, rfl, h⟩
        · refine ⟨n + 1, e, he, ?_⟩
          rwa [← Nat.add_assoc, Nat.add_right_comm]
      · rintro ⟨n, e, he, h⟩
        cases n with
        | zero =>
            cases he
            exact .inl h
        | succ n =>
            refine .inr ⟨n, e, he, ?_⟩
            rwa [Nat.add_right_comm, Nat.add_assoc]

/-- The entries of a tree are the ids of its parts with their positions. -/
lemma mem_entries {d : Derivation ν} {position q : Position} {x : ν} :
    (x, q) ∈ d.entries position ↔
      ∃ r e, q = position ++ r ∧ d.at? r = some e ∧ e.label.id = x := by
  induction d using ind generalizing position with
  | node label children ih =>
      rw [entries, List.mem_cons, mem_entriesOfAll]
      constructor
      · rintro (h | ⟨n, c, hc, h⟩)
        · cases h
          exact ⟨[], _, (List.append_nil _).symm, at?_nil _, rfl⟩
        · obtain ⟨r, e, rfl, he, hid⟩ := (ih c (List.mem_of_getElem? hc)).mp h
          refine ⟨n :: r, e, ?_, at?_cons_eq_some.mpr ⟨c, hc, he⟩, hid⟩
          rw [Nat.zero_add, List.append_assoc, List.singleton_append]
      · rintro ⟨r, e, rfl, he, rfl⟩
        cases r with
        | nil =>
            rw [at?_nil] at he
            cases he
            exact .inl (by rw [List.append_nil]; rfl)
        | cons n r =>
            obtain ⟨c, hc, he⟩ := at?_cons_eq_some.mp he
            refine .inr ⟨n, c, hc, (ih c (List.mem_of_getElem? hc)).mpr ⟨r, e, ?_, he, rfl⟩⟩
            rw [Nat.zero_add, List.append_assoc, List.singleton_append]

lemma map_fst_entriesOfAll {ds : List (Derivation ν)}
    (h : ∀ d ∈ ds, ∀ q, (d.entries q).map Prod.fst = d.nodes.map Node.id) (position : Position)
    (i : Nat) : (entriesOfAll position i ds).map Prod.fst = (ds.flatMap nodes).map Node.id := by
  induction ds generalizing i with
  | nil => simp [entriesOfAll]
  | cons d ds ih =>
      rw [entriesOfAll, List.map_append, List.flatMap_cons, List.map_append, h d List.mem_cons_self,
        ih fun e he => h e (List.mem_cons_of_mem d he)]

/-- The entries of a tree list the ids in pre-order. -/
lemma map_fst_entries (d : Derivation ν) (position : Position) :
    (d.entries position).map Prod.fst = d.nodes.map Node.id := by
  induction d using ind generalizing position with
  | node label children ih =>
      rw [entries, List.map_cons, map_fst_entriesOfAll ih, nodes_node, List.map_cons]

lemma prefix_of_mem_positions {d : Derivation ν} {position q : Position}
    (h : q ∈ (d.entries position).map Prod.snd) : position <+: q := by
  obtain ⟨⟨x, q⟩, hq, rfl⟩ := List.mem_map.mp h
  obtain ⟨r, e, rfl, -, -⟩ := mem_entries.mp hq
  exact List.prefix_append position r

lemma prefix_of_mem_positionsOfAll {ds : List (Derivation ν)} {position q : Position} {i : Nat}
    (h : q ∈ (entriesOfAll position i ds).map Prod.snd) : ∃ n, position ++ [i + n] <+: q := by
  obtain ⟨⟨x, q⟩, hq, rfl⟩ := List.mem_map.mp h
  obtain ⟨n, d, -, hd⟩ := mem_entriesOfAll.mp hq
  exact ⟨n, prefix_of_mem_positions (List.mem_map_of_mem hd)⟩

lemma pairwise_before_ofAll {ds : List (Derivation ν)}
    (h : ∀ d ∈ ds, ∀ q, ((d.entries q).map Prod.snd).Pairwise Position.Before) (position : Position)
    (i : Nat) : ((entriesOfAll position i ds).map Prod.snd).Pairwise Position.Before := by
  induction ds generalizing i with
  | nil => simp [entriesOfAll]
  | cons d ds ih =>
      rw [entriesOfAll, List.map_append, List.pairwise_append]
      refine ⟨h d List.mem_cons_self _, ih (fun e he => h e (List.mem_cons_of_mem d he)) _, ?_⟩
      intro q hq r hr
      obtain ⟨s, rfl⟩ := prefix_of_mem_positions hq
      obtain ⟨n, t, rfl⟩ := prefix_of_mem_positionsOfAll hr
      simpa using Position.before_of_lt position (show i < i + 1 + n by omega) s t

/-- A traversal meets the positions of a tree in order. -/
lemma pairwise_before (d : Derivation ν) (position : Position) :
    ((d.entries position).map Prod.snd).Pairwise Position.Before := by
  induction d using ind generalizing position with
  | node label children ih =>
      rw [entries, List.map_cons, List.pairwise_cons]
      refine ⟨fun q hq => ?_, pairwise_before_ofAll ih position 0⟩
      obtain ⟨n, t, rfl⟩ := prefix_of_mem_positionsOfAll hq
      simpa using position.before_append n t

/-- A traversal meets no position twice. -/
lemma nodup_positions (d : Derivation ν) (position : Position) :
    ((d.entries position).map Prod.snd).Nodup :=
  (d.pairwise_before position).imp fun hbefore heq => (heq ▸ hbefore).irrefl

/-- Trees with other ids have the same entries with these ids. -/
lemma entriesOfAll_map {μ : Type} {f : Derivation ν → Derivation μ} {g : ν → μ}
    {ds : List (Derivation ν)}
    (h : ∀ d ∈ ds, ∀ q, (f d).entries q = (d.entries q).map fun entry => (g entry.1, entry.2))
    (position : Position) (i : Nat) :
    entriesOfAll position i (ds.map f) =
      (entriesOfAll position i ds).map fun entry => (g entry.1, entry.2) := by
  induction ds generalizing i with
  | nil => rfl
  | cons d ds ih =>
      rw [List.map_cons, entriesOfAll, entriesOfAll, List.map_append, h d List.mem_cons_self,
        ih fun e he => h e (List.mem_cons_of_mem d he)]

lemma entries_mapLabels {μ : Type} {f : Node ν → Node μ} {g : ν → μ}
    (hf : ∀ n, (f n).id = g n.id) (d : Derivation ν) (position : Position) :
    (d.mapLabels f).entries position =
      (d.entries position).map fun entry => (g entry.1, entry.2) := by
  induction d using ind generalizing position with
  | node label children ih =>
      rw [mapLabels_node, entries, entries, entriesOfAll_map ih, List.map_cons, hf]

/-! ### The record of parents -/

section Relink

variable [Naming ν]

lemma relinkAll_eq_map (parent : Option ν) (ds : List (Derivation ν)) :
    relinkAll parent ds = ds.map (relink parent) := by
  induction ds with
  | nil => rw [relinkAll, List.map_nil]
  | cons d ds ih => rw [relinkAll, List.map_cons, ih]

lemma relink_node (parent : Option ν) (label : Node ν) (children : List (Derivation ν)) :
    (node label children).relink parent =
      node { label with parent } (children.map (relink (Naming.present label.id))) := by
  rw [relink, relinkAll_eq_map]

/-- The last record of parents counts. -/
lemma relink_relink (d : Derivation ν) (parent parent' : Option ν) :
    (d.relink parent).relink parent' = d.relink parent' := by
  induction d using ind generalizing parent parent' with
  | node label children ih =>
      rw [relink_node, relink_node, relink_node, List.map_map]
      congr 1
      exact List.map_congr_left fun c hc => ih c hc _ _

lemma relinkAll_relinkAll (ds : List (Derivation ν)) (parent parent' : Option ν) :
    relinkAll parent' (relinkAll parent ds) = relinkAll parent' ds := by
  rw [relinkAll_eq_map, relinkAll_eq_map, relinkAll_eq_map, List.map_map]
  exact List.map_congr_left fun d _ => d.relink_relink parent parent'

/-- The record of parents does not matter for an index. -/
lemma entries_relink (d : Derivation ν) (parent : Option ν) (position : Position) :
    (d.relink parent).entries position = d.entries position := by
  induction d using ind generalizing parent position with
  | node label children ih =>
      have hchildren := entriesOfAll_map (f := relink (Naming.present label.id)) (g := id)
        (fun c hc q => (ih c hc _ q).trans (List.map_id' _).symm) position 0
      rw [relink_node, entries, entries, hchildren]
      exact congrArg _ (List.map_id' _)

/-- What does not depend on the record of parents is the same for all nodes. -/
lemma map_nodes_relink {α : Type} {f : Node ν → α} (hf : ∀ n parent, f { n with parent } = f n)
    (d : Derivation ν) (parent : Option ν) : (d.relink parent).nodes.map f = d.nodes.map f := by
  induction d using ind generalizing parent with
  | node label children ih =>
      rw [relink_node, nodes_node, nodes_node, List.map_cons, List.map_cons, hf, List.map_flatMap,
        List.map_flatMap, List.flatMap_map]
      exact congrArg _ (List.flatMap_congr fun c hc => ih c hc _)

end Relink

/-- A tree whose record of parents is true: each child has its own part of the record. -/
lemma relink_eq_self {parent : Option Text} {label : Node} {children : List Derivation} :
    (node label children).relink parent = node label children ↔
      label.parent = parent ∧ ∀ c ∈ children, c.relink (some label.id) = c := by
  have hself : children.map (relink (some label.id)) = children ↔
      ∀ c ∈ children, c.relink (some label.id) = c := by
    simpa using List.map_eq_map_iff (l := children) (f := relink (some label.id)) (g := id)
  rw [relink_node, node.injEq, Naming.present_text, hself]
  refine and_congr_left fun _ => ⟨fun hlabel => congrArg Node.parent hlabel.symm, ?_⟩
  rintro rfl
  rfl

/-- Every node records the nearest node above it; at the root stands what was given there. -/
lemma parent_of_relink {d e : Derivation} {parent : Option Text} {q : Position}
    (hd : d.relink parent = d) (he : d.at? q = some e) :
    e.label.parent = ((d.above q).head?.map Node.id).or parent := by
  induction q generalizing d parent with
  | nil =>
      obtain rfl : d = e := Option.some.inj ((at?_nil d).symm.trans he)
      obtain ⟨label, children⟩ := d
      rw [above_nil]
      exact (relink_eq_self.mp hd).1
  | cons i q ih =>
      obtain ⟨label, children⟩ := d
      obtain ⟨c, hc, he⟩ := at?_cons_eq_some.mp he
      rw [ih ((relink_eq_self.mp hd).2 c (List.mem_of_getElem? hc)) he, above_cons hc,
        List.head?_append]
      cases (c.above q).head? <;> rfl

/-- A change keeps the record of parents true if it does so for the changed part. -/
lemma relink_modify {f : Derivation → Derivation} {d e : Derivation} {parent : Option Text}
    {q : Position} (hd : d.relink parent = d) (he : d.at? q = some e)
    (hf : ∀ parent, e.relink parent = e → (f e).relink parent = f e) :
    (d.modify f q).relink parent = d.modify f q := by
  induction q generalizing d parent with
  | nil =>
      obtain rfl : d = e := Option.some.inj ((at?_nil d).symm.trans he)
      rw [modify_nil]
      exact hf parent hd
  | cons i q ih =>
      obtain ⟨label, children⟩ := d
      obtain ⟨c, hc, he⟩ := at?_cons_eq_some.mp he
      obtain ⟨hlabel, hchildren⟩ := relink_eq_self.mp hd
      rw [modify_node_cons, List.modify_eq_set, hc, Option.getD_some, relink_eq_self]
      refine ⟨hlabel, fun c' hc' => ?_⟩
      obtain hc' | rfl := List.mem_or_eq_of_mem_set hc'
      · exact hchildren c' hc'
      · exact ih (hchildren c (List.mem_of_getElem? hc)) he

/-! ### Depth -/

lemma depth_le_greatestDepth {ds : List (Derivation ν)} {d : Derivation ν} (h : d ∈ ds) :
    d.depth ≤ greatestDepth ds := by
  induction ds with
  | nil => exact absurd h List.not_mem_nil
  | cons c cs ih =>
      rw [greatestDepth]
      rcases List.mem_cons.mp h with rfl | h
      · exact Nat.le_max_left ..
      · exact Nat.le_trans (ih h) (Nat.le_max_right ..)

lemma exists_depth_eq_greatestDepth {ds : List (Derivation ν)} (h : ds ≠ []) :
    ∃ d ∈ ds, d.depth = greatestDepth ds := by
  induction ds with
  | nil => exact absurd rfl h
  | cons c cs ih =>
      rw [greatestDepth]
      by_cases hle : greatestDepth cs ≤ c.depth
      · exact ⟨c, List.mem_cons_self, (Nat.max_eq_left hle).symm⟩
      · have hcs : cs ≠ [] := by
          rintro rfl
          exact hle (Nat.zero_le _)
        obtain ⟨d, hd, hdepth⟩ := ih hcs
        exact ⟨d, List.mem_cons_of_mem c hd, by omega⟩

/-- No way down is longer than the depth. -/
lemma length_lt_depth {d e : Derivation ν} {q : Position} (h : d.at? q = some e) :
    q.length < d.depth := by
  induction q generalizing d with
  | nil =>
      obtain ⟨label, children⟩ := d
      rw [depth, List.length_nil]
      omega
  | cons i q ih =>
      obtain ⟨label, children⟩ := d
      obtain ⟨c, hc, he⟩ := at?_cons_eq_some.mp h
      have hchild := depth_le_greatestDepth (List.mem_of_getElem? hc)
      have hlength := ih he
      rw [depth, List.length_cons]
      omega

/-- Some way down is as long as the depth. -/
lemma exists_length_eq_depth (d : Derivation ν) :
    ∃ q e, d.at? q = some e ∧ q.length + 1 = d.depth := by
  induction d using ind with
  | node label children ih =>
      rw [depth]
      by_cases hchildren : children = []
      · subst hchildren
        exact ⟨[], _, at?_nil _, rfl⟩
      · obtain ⟨c, hc, hdepth⟩ := exists_depth_eq_greatestDepth hchildren
        obtain ⟨q, e, he, hlength⟩ := ih c hc
        obtain ⟨i, hi⟩ := List.mem_iff_getElem?.mp hc
        refine ⟨i :: q, e, at?_cons_eq_some.mpr ⟨c, hi, he⟩, ?_⟩
        rw [List.length_cons]
        omega

/-! ### Completeness -/

/-- A node that is linked back stands at a position or above it. -/
def LinkedOver (d : Derivation ν) (q : Position) : Prop :=
  ∃ r e, r <+: q ∧ d.at? r = some e ∧ e.label.backLink.isSome

lemma linkedOver_nil {label : Node ν} {children : List (Derivation ν)} :
    (node label children).LinkedOver [] ↔ label.backLink.isSome := by
  constructor
  · rintro ⟨r, e, hr, he, hlink⟩
    rw [List.prefix_nil.mp hr, at?_nil] at he
    cases he
    exact hlink
  · exact fun hlink => ⟨[], _, List.nil_prefix, at?_nil _, hlink⟩

lemma linkedOver_cons {label : Node ν} {children : List (Derivation ν)} {c : Derivation ν} {i : Nat}
    (hc : children[i]? = some c) {q : Position} :
    (node label children).LinkedOver (i :: q) ↔ label.backLink.isSome ∨ c.LinkedOver q := by
  constructor
  · rintro ⟨r, e, hr, he, hlink⟩
    cases r with
    | nil =>
        rw [at?_nil] at he
        cases he
        exact .inl hlink
    | cons j r =>
        obtain ⟨rfl, hrq⟩ := List.cons_prefix_cons.mp hr
        obtain ⟨c', hc', he⟩ := at?_cons_eq_some.mp he
        obtain rfl : c = c' := Option.some.inj (hc.symm.trans hc')
        exact .inr ⟨r, e, hrq, he, hlink⟩
  · rintro (hlink | ⟨r, e, hr, he, hlink⟩)
    · exact ⟨[], _, List.nil_prefix, at?_nil _, hlink⟩
    · exact ⟨i :: r, e, List.cons_prefix_cons.mpr ⟨rfl, hr⟩, at?_cons_eq_some.mpr ⟨c, hc, he⟩,
        hlink⟩

/-- A tree is complete iff every open node stands at or below a node that is linked back. -/
theorem isComplete_iff {d : Derivation ν} :
    d.isComplete ↔ ∀ q e, d.at? q = some e → e.label.isOpen → d.LinkedOver q := by
  induction d using ind with
  | node label children ih =>
      rw [isComplete_node]
      constructor
      · intro hcomplete q e he hopen
        cases q with
        | nil =>
            rw [at?_nil] at he
            cases he
            rw [linkedOver_nil]
            refine hcomplete.resolve_right fun h => ?_
            rw [Derivation.label, Node.isOpen, Option.isNone_iff_eq_none] at hopen
            rw [hopen] at h
            cases h.1
        | cons i q =>
            obtain ⟨c, hi, he⟩ := at?_cons_eq_some.mp he
            have hc := List.mem_of_getElem? hi
            rw [linkedOver_cons hi]
            exact hcomplete.imp_right fun h => (ih c hc).mp (h.2 c hc) q e he hopen
      · intro hopen
        by_cases hlink : label.backLink.isSome
        · exact .inl hlink
        · refine .inr ⟨?_, fun c hc => (ih c hc).mpr fun q e he he' => ?_⟩
          · by_contra hrule
            have hlabel : label.isOpen := by simpa [Node.isOpen] using hrule
            exact hlink (linkedOver_nil.mp (hopen [] _ (at?_nil _) hlabel))
          · obtain ⟨i, hi⟩ := List.mem_iff_getElem?.mp hc
            have hover := hopen (i :: q) e (at?_cons_eq_some.mpr ⟨c, hi, he⟩) he'
            exact ((linkedOver_cons hi).mp hover).resolve_left hlink

lemma openNodes_eq_nil {d : Derivation ν} :
    d.openNodes = [] ↔ ∀ q e, d.at? q = some e → ¬ e.label.isOpen := by
  rw [openNodes, List.filter_eq_nil_iff]
  constructor
  · exact fun h q e he => h e.label (mem_nodes.mpr ⟨q, e, he, rfl⟩)
  · rintro h n hn
    obtain ⟨q, e, he, rfl⟩ := mem_nodes.mp hn
    exact h q e he

/-- Only closed nodes without children are linked back. -/
def LinksAtClosedLeaves (d : Derivation ν) : Prop :=
  ∀ q e, d.at? q = some e → e.label.backLink.isSome → ¬ e.label.isOpen ∧ e.children = []

/-- Where only closed nodes without children are linked back, complete trees are those without open
nodes. -/
theorem isComplete_iff_openNodes_eq_nil {d : Derivation ν} (h : d.LinksAtClosedLeaves) :
    d.isComplete ↔ d.openNodes = [] := by
  rw [isComplete_iff, openNodes_eq_nil]
  constructor
  · intro hlinked q e he hopen
    obtain ⟨r, f, ⟨s, rfl⟩, hf, hlink⟩ := hlinked q e he hopen
    obtain ⟨hclosed, hchildren⟩ := h r f hf hlink
    rw [at?_append, hf, Option.bind_some] at he
    obtain ⟨label, children⟩ := f
    cases s with
    | nil =>
        rw [at?_nil] at he
        cases he
        exact hclosed hopen
    | cons i s =>
        rw [Derivation.children] at hchildren
        rw [hchildren, at?_node_cons] at he
        cases he
  · exact fun hclosed q e he hopen => absurd hopen (hclosed q e he)

end Derivation

end TreeCalculus
