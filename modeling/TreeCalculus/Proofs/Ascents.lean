import TreeCalculus.Proofs.Documents
import TreeCalculus.Proofs.Skeletons

/-!
Walks through recorded parents.

The ancestors of a node are found by looking up the recorded parent again and again. A saved proof
may repeat ids, and then the index knows the last node with an id, so that the walk leaves the way
up in the tree and may jump to other branches. It ends all the same if no node has the id of a
node above it. For if it went round, take the first, in the order of the traversal, of the places
through which the round goes up. Each of the others is met after it and, as the index knows the
last node with an id, no later than the node from which the round goes on. So, backwards along the
round, everything stands below the first place, in the end a node with the id of that place.

* `Derivation.DistinctOnPaths`: no node has the id of a node above it.
* `Proof.eq_or_before_of_find?`: the index knows the last node with an id.
* `Proof.not_transGen_recordsAbove`: no walk comes back to its beginning.
* `Proof.Climbs`, `Proof.Seeks`: the walk without a bound on its length, and a search along it.
* `Derivation.distinctOnPaths_skeleton`: the condition on the ids, read off the skeleton of a tree.
* `Proof.ancestors_climb`: the walk from any node ends and meets no node twice, and searches along
  it end.
-/

namespace TreeCalculus

open Json (Value)

/-! ### Ids on the way down -/

namespace Derivation

/-- A node stands above all positions below it. -/
lemma label_mem_above {d e : Derivation} {q : Position} (h : d.at? q = some e) (i : Nat)
    {r : Position} {f : Derivation} (hf : d.at? (q ++ i :: r) = some f) :
    e.label ∈ d.above (q ++ i :: r) := by
  induction q generalizing d with
  | nil =>
      obtain rfl : d = e := Option.some.inj ((at?_nil d).symm.trans h)
      obtain ⟨label, children⟩ := d
      obtain ⟨c, hc, -⟩ := at?_cons_eq_some.mp hf
      simp [above_cons hc, Derivation.label]
  | cons j q ih =>
      obtain ⟨label, children⟩ := d
      obtain ⟨c, hc, he⟩ := at?_cons_eq_some.mp h
      rw [List.cons_append] at hf ⊢
      obtain ⟨c', hc', hf⟩ := at?_cons_eq_some.mp hf
      obtain rfl : c = c' := Option.some.inj (hc.symm.trans hc')
      rw [above_cons hc]
      exact List.mem_append_left _ (ih he hf)

/-- No node has the id of a node above it. -/
def DistinctOnPaths {ν : Type} (d : Derivation ν) : Prop :=
  ∀ q e, d.at? q = some e → ∀ a ∈ d.above q, a.id ≠ e.label.id

/-- It is enough to look at the entries for an index. -/
lemma distinctOnPaths_iff {ν : Type} {d : Derivation ν} :
    d.DistinctOnPaths ↔ ∀ entry ∈ d.entries [], ∀ a ∈ d.above entry.2, a.id ≠ entry.1 := by
  constructor
  · rintro h ⟨x, q⟩ hentry
    obtain ⟨q, e, rfl, he, rfl⟩ := mem_entries.mp hentry
    exact h q e he
  · exact fun h q e he => h (e.label.id, q) (mem_entries.mpr ⟨q, e, rfl, he, rfl⟩)

instance (d : Derivation) : Decidable d.DistinctOnPaths :=
  decidable_of_iff _ distinctOnPaths_iff.symm

/-- A node has the id of a node above it iff it has so in the skeleton of the tree. -/
lemma distinctOnPaths_skeleton {d : Derivation Value} (h : d.StringIds) :
    d.skeleton.DistinctOnPaths ↔ d.DistinctOnPaths := by
  have hid {q : Position} {e : Derivation Value} (he : d.at? q = some e) (a : Node Value)
      (ha : a ∈ d.above q) : a.skeleton.id = e.label.skeleton.id ↔ a.id = e.label.id := by
    have ha' : a ∈ d.nodes := (reverse_above_sublist he).subset (by simp [ha])
    have he' : e.label ∈ d.nodes := mem_nodes.mpr ⟨q, e, he, rfl⟩
    rw [← h.str_id ha', ← h.str_id he', Value.str_injective.eq_iff]
  constructor
  · intro hdistinct q e he a ha heq
    have he' : d.skeleton.at? q = some e.skeleton := (at?_mapLabels _ d q).trans (by rw [he]; rfl)
    have ha' : a.skeleton ∈ d.skeleton.above q :=
      (above_mapLabels Node.skeleton d q).symm ▸ List.mem_map_of_mem ha
    refine hdistinct q _ he' _ ha' (((hid he a ha).mpr heq).trans ?_)
    rw [skeleton, label_mapLabels]
  · intro hdistinct q e' he' a' ha'
    rw [skeleton, at?_mapLabels, Option.map_eq_some_iff] at he'
    obtain ⟨e, he, rfl⟩ := he'
    rw [skeleton, above_mapLabels] at ha'
    obtain ⟨a, ha, rfl⟩ := List.mem_map.mp ha'
    rw [label_mapLabels]
    exact fun heq => hdistinct q e he a ha ((hid he a ha).mp heq)

end Derivation

namespace Proof

/-! ### Steps of the walk -/

/-- The node that the index gives for the id `x` records the parent `y`. -/
def RecordsAbove (p : Proof) (x y : Text) : Prop := (p.node? x).bind Node.parent = some y

lemma node?_eq_some {p : Proof} {x : Text} {n : Node} :
    p.node? x = some n ↔
      ∃ q d, p.index.find? x = some q ∧ p.tree.at? q = some d ∧ d.label = n := by
  simp [node?, find?, Option.bind_eq_some_iff]

/-- A step of the walk comes from a node that the index knows, through the place above it. -/
lemma Coherent.recordsAbove_iff {p : Proof} (hp : p.Coherent) {x y : Text} :
    p.RecordsAbove x y ↔ ∃ q i e, p.index.find? x = some (q ++ [i]) ∧ p.tree.at? q = some e ∧
      e.label.id = y := by
  have hparent {q : Position} {i : Nat} {d e : Derivation} (hd : p.tree.at? (q ++ [i]) = some d)
      (he : p.tree.at? q = some e) : d.label.parent = some e.label.id := by
    simp [Derivation.parent_of_relink hp.linked hd, Derivation.above_concat he]
  constructor
  · intro h
    obtain ⟨n, hn, hy⟩ := Option.bind_eq_some_iff.mp h
    obtain ⟨position, d, hposition, hd, rfl⟩ := node?_eq_some.mp hn
    obtain rfl | ⟨q, i, rfl⟩ := List.eq_nil_or_concat' position
    · -- the root records no parent
      rw [Derivation.parent_of_relink hp.linked hd, Derivation.above_nil] at hy
      cases hy
    · have hd' := hd
      rw [Derivation.at?_append] at hd'
      obtain ⟨e, he, -⟩ := Option.bind_eq_some_iff.mp hd'
      exact ⟨q, i, e, hposition, he, Option.some.inj ((hparent hd he).symm.trans hy)⟩
  · rintro ⟨q, i, e, hx, he, rfl⟩
    obtain ⟨d, hd, -⟩ := hp.indexed x _ hx
    have hnode : p.node? x = some d.label := node?_eq_some.mpr ⟨_, d, hx, hd, rfl⟩
    rw [RecordsAbove, hnode, Option.bind_some, hparent hd he]

/-- The index of a tree knows the last node with an id: the others come before it. -/
lemma eq_or_before_of_find? {tree e : Derivation} {x : Text} {q r : Position}
    (hq : (ofTree tree).index.find? x = some q) (hr : (ofTree tree).tree.at? r = some e)
    (hx : e.label.id = x) : r = q ∨ r.Before q := by
  have hentry : (x, r) ∈ tree.entries [] := by
    rw [← tree.entries_relink none]
    exact Derivation.mem_entries.mpr ⟨r, e, rfl, hr, hx⟩
  obtain ⟨before, behind, hsplit, hbehind⟩ :=
    Table.find?_insertAll_of_mem hq (List.mem_map_of_mem hentry)
  have hsorted := tree.pairwise_before []
  rw [hsplit, List.map_append, List.map_cons, List.pairwise_append] at hsorted
  rw [hsplit, List.mem_append, List.mem_cons] at hentry
  obtain hbefore | hsame | hlater := hentry
  · exact .inr (hsorted.2.2 r (List.mem_map_of_mem hbefore) q List.mem_cons_self)
  · exact .inl (congrArg Prod.snd hsame)
  · exact absurd (List.mem_map_of_mem hlater) hbehind

/-! ### No walk goes round -/

open Relation (ReflTransGen TransGen)

/-- The walk comes from some node through the place `q`, and from there back to that node. -/
def ComesRound (p : Proof) (q : Position) : Prop :=
  ∃ x i e, p.index.find? x = some (q ++ [i]) ∧ p.tree.at? q = some e ∧
    ReflTransGen p.RecordsAbove e.label.id x

/-- If the walk comes round through some place, then there is a first such place. -/
lemma exists_first_comesRound {p : Proof} {q : Position} (h : p.ComesRound q) :
    ∃ first, p.ComesRound first ∧
      ∀ r, p.ComesRound r → first = r ∨ first.Before r := by
  have hmem {r : Position} (hr : p.ComesRound r) : r ∈ (p.tree.entries []).map Prod.snd := by
    obtain ⟨x, i, e, -, he, -⟩ := hr
    exact List.mem_map_of_mem (Derivation.mem_entries.mpr ⟨r, e, rfl, he, rfl⟩)
  have hfirst : ∀ {places : List Position}, places.Pairwise Position.Before → q ∈ places →
      ∃ first, p.ComesRound first ∧
        ∀ r ∈ places, p.ComesRound r → first = r ∨ first.Before r := by
    intro places hsorted hq
    induction places with
    | nil => exact absurd hq List.not_mem_nil
    | cons place places ih =>
        rw [List.pairwise_cons] at hsorted
        by_cases hplace : p.ComesRound place
        · refine ⟨place, hplace, fun r hr _ => ?_⟩
          exact (List.mem_cons.mp hr).imp Eq.symm (hsorted.1 r)
        · have hne : q ≠ place := fun heq => hplace (heq ▸ h)
          obtain ⟨first, hround, hleast⟩ := ih hsorted.2 ((List.mem_cons.mp hq).resolve_left hne)
          refine ⟨first, hround, fun r hr hr' => hleast r ?_ hr'⟩
          exact (List.mem_cons.mp hr).resolve_left fun heq => hplace (heq ▸ hr')
  obtain ⟨first, hround, hleast⟩ := hfirst (p.tree.pairwise_before []) (hmem h)
  exact ⟨first, hround, fun r hr => hleast r (hmem hr) hr⟩

/-- The walk comes round through no place, if no node has the id of a node above it. -/
lemma not_comesRound {tree : Derivation} (hdistinct : (ofTree tree).tree.DistinctOnPaths)
    (q : Position) : ¬ (ofTree tree).ComesRound q := by
  intro hq
  have hp := coherent_ofTree tree
  obtain ⟨first, ⟨x, i, e, hx, he, hback⟩, hleast⟩ := exists_first_comesRound hq
  have hstep : (ofTree tree).RecordsAbove x e.label.id :=
    hp.recordsAbove_iff.mpr ⟨first, i, e, hx, he, rfl⟩
  -- backwards along the round, every node found stands below the first place
  have hbelow : ∀ y, ReflTransGen (ofTree tree).RecordsAbove y x →
      ReflTransGen (ofTree tree).RecordsAbove e.label.id y →
      ∃ j r, (ofTree tree).index.find? y = some (first ++ j :: r) := by
    intro y hyx
    induction hyx using ReflTransGen.head_induction_on with
    | refl => exact fun _ => ⟨i, [], hx⟩
    | @head y z hyz hzx ih =>
        intro hy
        obtain ⟨j, r, hz⟩ := ih (hy.tail hyz)
        obtain ⟨place, k, f, hfind, hf, rfl⟩ := hp.recordsAbove_iff.mp hyz
        have hround : (ofTree tree).ComesRound place :=
          ⟨y, k, f, hfind, hf, (hzx.tail hstep).trans hy⟩
        obtain ⟨s, rfl⟩ : first <+: place :=
          Position.prefix_of_between (List.prefix_append first (j :: r)) (hleast place hround)
            (eq_or_before_of_find? hz hf rfl)
        rw [hfind, List.append_assoc]
        cases s with
        | nil => exact ⟨k, [], rfl⟩
        | cons l s => exact ⟨l, s ++ [k], rfl⟩
  obtain ⟨j, r, hfind⟩ := hbelow e.label.id hback .refl
  obtain ⟨f, hf, hid⟩ := hp.indexed _ _ hfind
  exact hdistinct _ f hf e.label (Derivation.label_mem_above he j hf) hid.symm

/-- No walk comes back to where it began, if no node has the id of a node above it. -/
lemma not_transGen_recordsAbove {tree : Derivation}
    (hdistinct : (ofTree tree).tree.DistinctOnPaths) (x : Text) :
    ¬ TransGen (ofTree tree).RecordsAbove x x := by
  intro h
  obtain ⟨y, hxy, hyx⟩ := TransGen.head'_iff.mp h
  obtain ⟨q, i, e, hx, he, rfl⟩ := (coherent_ofTree tree).recordsAbove_iff.mp hxy
  exact not_comesRound hdistinct q ⟨x, i, e, hx, he, hyx⟩

/-! ### Whole walks -/

section Walks

variable {ν : Type} [BEq ν]

/-- The walk through recorded parents, beginning with an id, meets these nodes and ends. -/
inductive Climbs (p : Proof ν) : Option ν → List (Node ν) → Prop
  /-- Where no parent is recorded, the walk ends. -/
  | top : Climbs p none []
  /-- At an id that the index does not know, the walk ends. -/
  | unknown {id : ν} : p.node? id = none → Climbs p (some id) []
  /-- A known node is met, and the walk goes on with the parent that it records. -/
  | up {id : ν} {node : Node ν} {nodes : List (Node ν)} : p.node? id = some node →
      Climbs p node.parent nodes → Climbs p (some id) (node :: nodes)

/-- A walk that ends meets the same nodes each time. -/
lemma Climbs.unique {p : Proof ν} {parent : Option ν} {nodes nodes' : List (Node ν)}
    (h : p.Climbs parent nodes) (h' : p.Climbs parent nodes') : nodes = nodes' := by
  induction h generalizing nodes' with
  | top =>
      cases h'
      rfl
  | unknown hnone =>
      cases h' with
      | unknown _ => rfl
      | up hsome _ =>
          rw [hnone] at hsome
          cases hsome
  | up hsome _ ih =>
      cases h' with
      | unknown hnone =>
          rw [hnone] at hsome
          cases hsome
      | up hsome' hrest =>
          obtain rfl := Option.some.inj (hsome.symm.trans hsome')
          rw [ih hrest]

/-- The search along the walk, beginning with an id, for the first node that passes a test, ends
with this answer. -/
inductive Seeks (p : Proof ν) (test : Node ν → Bool) : Option ν → Option (Node ν) → Prop
  /-- Nothing is found where no parent is recorded. -/
  | top : Seeks p test none none
  /-- Nothing is found at an id that the index does not know. -/
  | unknown {id : ν} : p.node? id = none → Seeks p test (some id) none
  /-- The node that is met passes the test, and the search stops. -/
  | found {id : ν} {node : Node ν} : p.node? id = some node → test node →
      Seeks p test (some id) (some node)
  /-- The node that is met does not pass, and the search goes on with the parent that it records. -/
  | passed {id : ν} {node : Node ν} {answer : Option (Node ν)} : p.node? id = some node →
      ¬ test node → Seeks p test node.parent answer → Seeks p test (some id) answer

/-- Along a walk that ends every search ends. -/
lemma Climbs.seeks {p : Proof ν} {parent : Option ν} {nodes : List (Node ν)}
    (h : p.Climbs parent nodes) (test : Node ν → Bool) :
    p.Seeks test parent (nodes.find? test) := by
  induction h with
  | top => exact .top
  | unknown hnone => exact .unknown hnone
  | up hsome _ ih =>
      rw [List.find?_cons]
      split
      · next htest => exact .found hsome htest
      · next htest => exact .passed hsome (by simp [htest]) ih

/-- The walk from a node that is found under the id of its own parent does not end. -/
lemma not_climbs_of_parent {p : Proof ν} {id : ν} {node : Node ν} (hnode : p.node? id = some node)
    (hparent : node.parent = some id) (nodes : List (Node ν)) : ¬ p.Climbs (some id) nodes := by
  induction nodes with
  | nil =>
      intro h
      cases h with
      | unknown hnone =>
          rw [hnode] at hnone
          cases hnone
  | cons first rest ih =>
      intro h
      cases h with
      | up hsome hrest =>
          obtain rfl := Option.some.inj (hnode.symm.trans hsome)
          rw [hparent] at hrest
          exact ih hrest

/-- A walk that was not cut off at its bound has ended. -/
lemma climbs_walkUp {p : Proof ν} {bound : Nat} {parent : Option ν}
    (h : (p.walkUp bound parent).length < bound) : p.Climbs parent (p.walkUp bound parent) := by
  induction bound generalizing parent with
  | zero => exact absurd h (Nat.not_lt_zero _)
  | succ bound ih =>
      cases parent with
      | none => exact .top
      | some id =>
          cases hid : p.node? id with
          | none => simpa [walkUp, hid] using Climbs.unknown hid
          | some node =>
              simp only [walkUp, hid, List.length_cons, Nat.add_lt_add_iff_right] at h ⊢
              exact .up hid (ih h)

/-- The walk from a node has ended if it meets fewer nodes than the index has ids. -/
lemma climbs_ancestors {p : Proof ν} {id : ν}
    (h : ∀ node, p.node? id = some node → (p.ancestors id).length < p.index.size) :
    p.Climbs ((p.node? id).bind Node.parent) (p.ancestors id) := by
  cases hid : p.node? id with
  | none =>
      rw [ancestors, hid]
      cases p.index.size <;> exact .top
  | some node =>
      rw [← hid]
      exact climbs_walkUp (h node hid)

end Walks

/-- From a node the walk goes from one recorded parent to the next. -/
lemma Indexed.isChain_walkUp {p : Proof} (hp : p.Indexed) (bound : Nat) (x : Text) :
    (x :: (p.walkUp bound ((p.node? x).bind Node.parent)).map Node.id).IsChain p.RecordsAbove := by
  induction bound generalizing x with
  | zero => exact .singleton x
  | succ bound ih =>
      cases hparent : (p.node? x).bind Node.parent with
      | none => exact .singleton x
      | some y =>
          cases hy : p.node? y with
          | none => simp [walkUp, hy]
          | some node =>
              obtain ⟨q, d, hq, hd, rfl⟩ := node?_eq_some.mp hy
              have hrest := ih y
              rw [hy, Option.bind_some] at hrest
              simp only [walkUp, hy, List.map_cons, hp.id_eq hq hd]
              exact .cons_cons hparent hrest

lemma Indexed.mem_names_of_walkUp {p : Proof} (hp : p.Indexed) {bound : Nat} {parent : Option Text}
    {n : Node} (hn : n ∈ p.walkUp bound parent) : n.id ∈ p.index.names := by
  induction bound generalizing parent with
  | zero => exact absurd hn List.not_mem_nil
  | succ bound ih =>
      cases parent with
      | none => exact absurd hn List.not_mem_nil
      | some y =>
          cases hy : p.node? y with
          | none => simp [walkUp, hy] at hn
          | some node =>
              simp only [walkUp, hy, List.mem_cons] at hn
              obtain rfl | hn := hn
              · obtain ⟨q, d, hq, hd, rfl⟩ := node?_eq_some.mp hy
                exact Table.mem_names.mpr ⟨q, (hp.id_eq hq hd).symm ▸ hq⟩
              · exact ih hn

/-- A walk that meets no node twice is not cut off: the index has more ids than it meets. -/
lemma Indexed.length_ancestors_lt {p : Proof} (hp : p.Indexed) {id : Text} {node : Node}
    (hid : p.node? id = some node) (hnodup : (id :: (p.ancestors id).map Node.id).Nodup) :
    (p.ancestors id).length < p.index.size := by
  obtain ⟨q, -, hq, -, -⟩ := node?_eq_some.mp hid
  have hnames : ∀ x ∈ id :: (p.ancestors id).map Node.id, x ∈ p.index.names := by
    intro x hx
    obtain rfl | hx := List.mem_cons.mp hx
    · exact Table.mem_names.mpr ⟨q, hq⟩
    · obtain ⟨n, hn, rfl⟩ := List.mem_map.mp hx
      exact hp.mem_names_of_walkUp hn
  have hlength := Table.length_le_size hnodup hnames
  rwa [List.length_cons, List.length_map] at hlength

lemma nodup_ancestors {tree : Derivation} (hdistinct : (ofTree tree).tree.DistinctOnPaths)
    (id : Text) : (id :: ((ofTree tree).ancestors id).map Node.id).Nodup :=
  Table.nodup_of_isChain (not_transGen_recordsAbove hdistinct)
    ((coherent_ofTree tree).indexed.isChain_walkUp _ id)

/-- **Walks through recorded parents end.** Let a proof be read whose nodes have strings for ids,
and in which no node has the id of a node above it in the tree; elsewhere ids may be repeated.
Then the walk from any id ends, the ancestors, and so the path to the root, are the nodes that it
meets, and no node is met twice. Every search along the walk ends with the first ancestor that
passes its test, and so do the search for an ancestor with the same goal and those that the audit
of links makes for the targets. -/
theorem ancestors_climb (v : Value) (p : Proof Value) (hread : ofValue v = .ok p)
    (hids : p.tree.StringIds) (hdistinct : p.tree.DistinctOnPaths) (id : Text) :
    let above := p.ancestors (.str id)
    let parent := (p.node? (.str id)).bind Node.parent
    (∀ nodes, p.Climbs parent nodes ↔ nodes = above) ∧
    (.str id :: above.map Node.id).Nodup ∧
    ∀ test, p.Seeks test parent (above.find? test) := by
  intro above parent
  have hp : p.reindex = p := reindex_of_ofValue hread
  have hcoherent : p.skeleton.Coherent := coherent_ofTree p.tree.skeleton
  -- what is known of the walk in the skeleton holds of the walk in the proof
  have hnodup : (id :: (p.skeleton.ancestors id).map Node.id).Nodup := by
    refine nodup_ancestors ?_ id
    rw [← skeleton, tree_skeleton hp hids]
    exact (Derivation.distinctOnPaths_skeleton hids).mpr hdistinct
  have hclimbs : p.Climbs parent above := by
    refine climbs_ancestors fun node hnode => ?_
    have hnode' : p.skeleton.node? id = some node.skeleton := by
      rw [node?_skeleton hp hids, hnode, Option.map_some]
    have hlength := hcoherent.indexed.length_ancestors_lt hnode' hnodup
    rwa [ancestors_skeleton hp hids, List.length_map, ← size_index_skeleton hp hids] at hlength
  refine ⟨fun nodes => ⟨fun h => h.unique hclimbs, fun h => h ▸ hclimbs⟩, ?_, hclimbs.seeks⟩
  rw [map_id_ancestors hp hids, ← List.map_cons]
  exact hnodup.map Value.str_injective

/-- A part of a tree whose root is open on the goal `△ = △`. -/
def openPart {ν : Type} (id : ν) (children : List (Derivation ν)) : Derivation ν :=
  .node { id, sequent := { goal := ⟨.leaf, .leaf⟩, id } } children

/-- Two nodes `x` in different branches. The index knows the second, so that the walk from `y`,
which stands below the first, goes on in the other branch. -/
def twoBranches : Derivation Value :=
  openPart (.str "r")
    [openPart (.str "x") [openPart (.str "y") []],
     openPart (.str "z") [openPart (.str "x") [openPart (.str "w") []]]]

/-- From `y` the walk meets `z`, which does not stand above `y`. -/
theorem ancestors_climb_other_branch :
    let p := ofTree twoBranches
    (∃ v, ofValue v = .ok p) ∧ p.tree.StringIds ∧ p.tree.DistinctOnPaths ∧
      (p.tree.above [0, 0]).map Node.id = [.str "x", .str "r"] ∧
      ∃ nodes, p.Climbs (some (.str "x")) nodes ∧
        nodes.map Node.id = [.str "x", .str "z", .str "r"] := by
  intro p
  have hread : ofValue p.toValue = .ok p := rfl
  have hids : p.tree.StringIds := by decide
  have hdistinct : p.tree.DistinctOnPaths :=
    (Derivation.distinctOnPaths_skeleton hids).mp (by decide)
  have hclimb := (ancestors_climb _ p hread hids hdistinct "y").1
  exact ⟨⟨_, hread⟩, hids, hdistinct, rfl, _, (hclimb _).mpr rfl, rfl⟩

/-- Two nodes, the lower of which finds itself under the id of the upper one. First the ids are
`true` and the number one, which are different values and look up the same entry of the index;
then both are no number, which is not the same as itself and looks up its own entry. The walk from
the lower node comes back to it and never ends. -/
theorem ancestors_endless_beyond_strings :
    let p : Proof Value := ofTree (openPart (.bool true) [openPart (.int 1) []])
    let p' : Proof Value := ofTree (openPart (.real .nan) [openPart (.real .nan) []])
    ((∃ v, ofValue v = .ok p) ∧ p.tree.DistinctOnPaths ∧
      ∀ nodes, ¬ p.Climbs ((p.node? (.int 1)).bind Node.parent) nodes) ∧
    ((∃ v, ofValue v = .ok p') ∧
      (∀ n ∈ p'.tree.nodes, ∀ m ∈ p'.tree.nodes, ¬ Naming.same n.id m.id) ∧
      ∀ nodes, ¬ p'.Climbs ((p'.node? (.real .nan)).bind Node.parent) nodes) := by
  intro p p'
  have hround : ∀ nodes, ¬ p.Climbs (some (.bool true)) nodes := not_climbs_of_parent rfl rfl
  have hround' : ∀ nodes, ¬ p'.Climbs (some (.real .nan)) nodes := not_climbs_of_parent rfl rfl
  refine ⟨⟨⟨p.toValue, rfl⟩, ?_, hround⟩, ⟨p'.toValue, rfl⟩, fun n hn m hm => ?_, hround'⟩
  · have hentries : p.tree.entries [] = [(.bool true, []), (.int 1, [0])] := rfl
    rw [Derivation.distinctOnPaths_iff, hentries]
    simp only [List.forall_mem_cons]
    refine ⟨nofun, fun a ha => ?_, nofun⟩
    obtain rfl := List.mem_singleton.mp ha
    nofun
  · have hid (n : Node Value) (hn : n ∈ p'.tree.nodes) : n.id = .real .nan := by
      obtain rfl | hn := List.mem_cons.mp hn
      · rfl
      · rw [List.mem_singleton.mp hn]
    rw [hid n hn, hid m hm]
    nofun

end Proof

end TreeCalculus
