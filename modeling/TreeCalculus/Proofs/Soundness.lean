import TreeCalculus.Proofs.Prelude
import TreeCalculus.Proofs.Runs

/-!
Soundness of proofs up to their frontier.

Throughout a proof that sound calls have built, a node is open, linked back, or valid as soon as
its children are. So if the open nodes and the nodes that are linked back are valid, then all
nodes are, and the first sequent is. A complete proof without links has no such nodes, and its
sequent is valid.

* `Node.Grounded`, `Derivation.Locally.of_frontier`: the invariant, and validity from the
  frontier.
* `Proof.validOver_of_frontier`, `Proof.validOver_of_isComplete`: the same for the proofs that
  sound calls build, and for complete ones without links.
* `Proof.convertible_of_isComplete`: the case of a goal without variables and hypotheses.
* `reachable_proof_sound`: soundness for canonical values, with theorems that hold for all closed
  terms.
-/

namespace TreeCalculus

/-- The invariant of sound proofs: a node is open, or linked back, or has the property `V` as soon
as the sequents below it have. -/
def Node.Grounded (V : Sequent → Prop) (label : Node) (below : List Sequent) : Prop :=
  label.isOpen ∨ label.backLink.isSome ∨ ((∀ s ∈ below, V s) → V label.sequent)

namespace Derivation

/-- The root of a grounded tree has a property if all open and all linked nodes have it. -/
lemma Locally.of_frontier {V : Sequent → Prop} {d : Derivation}
    (hd : d.Locally (Node.Grounded V))
    (hopen : ∀ n ∈ d.nodes, n.isOpen → V n.sequent)
    (hlink : ∀ n ∈ d.nodes, n.backLink.isSome → V n.sequent) : V d.label.sequent := by
  induction hd with
  | @node label children hlabel _ ih =>
      have hself : label ∈ (Derivation.node label children).nodes :=
        mem_nodes_node.mpr (.inl rfl)
      have hbelow : ∀ c ∈ children, ∀ n ∈ c.nodes,
          n ∈ (Derivation.node label children).nodes :=
        fun c hc n hn => mem_nodes_node.mpr (.inr ⟨c, hc, hn⟩)
      obtain hlabel | hlabel | hlabel := hlabel
      · exact hopen label hself hlabel
      · exact hlink label hself hlabel
      · refine hlabel fun s hs => ?_
        obtain ⟨c, hc, rfl⟩ := List.mem_map.mp hs
        exact ih c hc (fun n hn => hopen n (hbelow c hc n hn))
          (fun n hn => hlink n (hbelow c hc n hn))

end Derivation

namespace Proof

variable {table : Definitions} {domain : Text → Term → Prop} {allowed : Judgment → Tactic → Prop}

/-- If the open and the linked nodes of a proof that sound calls have built are valid, so is the
sequent that it started with. -/
lemma validOver_of_frontier (htable : table.Closed)
    (hvalue : ∀ x t, Term.IsValue t → domain x t)
    (hallowed : ∀ j tactic, allowed j tactic → tactic.SoundAt table domain j)
    {sequent : Sequent} {p : Proof} (h : Reaches allowed (start sequent) p)
    (hopen : ∀ n ∈ p.tree.nodes, n.isOpen → n.sequent.ValidOver table domain)
    (hlink : ∀ n ∈ p.tree.nodes, n.backLink.isSome → n.sequent.ValidOver table domain) :
    sequent.ValidOver table domain := by
  have hgrounded : p.tree.Locally (Node.Grounded fun s => s.ValidOver table domain) ∧
      p.tree.label.sequent = sequent := by
    refine h.locally (fun label hlabel _ => .inl hlabel) ?_
    intro p label tactic closing before subgoals hcall hclosing hsubgoals
    cases hback : closing.backLink with
    | some link => exact .inr (.inl rfl)
    | none =>
        refine .inr (.inr fun hbelow => ?_)
        refine Tactic.validOver_of_closing htable hvalue (hallowed _ _ hcall) hclosing hback ?_
        intro g hg
        rw [← hsubgoals] at hg
        obtain ⟨s, hs, rfl⟩ := List.mem_map.mp hg
        exact hbelow s (List.mem_append_right before hs)
  obtain ⟨hlocally, rfl⟩ := hgrounded
  exact hlocally.of_frontier hopen hlink

/-- The sequent of a complete proof without links that sound calls have built is valid. -/
lemma validOver_of_isComplete (htable : table.Closed)
    (hvalue : ∀ x t, Term.IsValue t → domain x t)
    (hallowed : ∀ j tactic, allowed j tactic → tactic.SoundAt table domain j)
    {sequent : Sequent} {p : Proof} (h : Reaches allowed (start sequent) p)
    (hcomplete : p.isComplete) (hlinks : ∀ n ∈ p.tree.nodes, n.backLink = none) :
    sequent.ValidOver table domain := by
  have hclosed := Derivation.not_isOpen_of_isComplete hcomplete hlinks
  refine validOver_of_frontier htable hvalue hallowed h ?_ ?_
  · exact fun n hn hopen => absurd hopen (hclosed n hn)
  · intro n hn hlink
    rw [hlinks n hn] at hlink
    cases hlink

/-- A complete proof of a goal without variables and hypotheses, built by sound calls other than
induction, makes the sides of the goal convertible. -/
lemma convertible_of_isComplete (htable : table.Closed)
    (hallowed : ∀ j tactic, allowed j tactic →
      tactic ≠ .induction ∧ tactic.SoundAt table (fun _ => Term.IsValue) j)
    {sequent : Sequent} (hhyps : sequent.hypotheses = [])
    (hlhs : sequent.goal.lhs.vars = []) (hrhs : sequent.goal.rhs.vars = []) {p : Proof}
    (h : Reaches allowed (start sequent) p) (hcomplete : p.isComplete) :
    Term.Convertible table sequent.goal.lhs sequent.goal.rhs := by
  have hlinks := h.backLink_eq_none fun j tactic ht => (hallowed j tactic ht).1
  have hvalid : sequent.Valid table := validOver_of_isComplete htable (fun _ _ hv => hv)
    (fun j tactic ht => (hallowed j tactic ht).2) h hcomplete hlinks
  -- there is nothing to assign, so any assignment will do
  have hholds := hvalid (fun _ => .leaf) (fun _ => .leaf) (by simp [hhyps])
  rwa [Equation.HoldsUnder, Term.instantiate_eq_self hlhs, Term.instantiate_eq_self hrhs] at hholds

end Proof

/-- **Soundness of the calculus up to its frontier**: let the definitions have no variables, and
let a run start from a sequent, unfold these definitions only, and use only theorems that hold for
all closed terms. If all open nodes of the proof that it reaches are valid, and all nodes that are
linked back, then the sequent is valid. In particular it is valid if the proof is complete and has
no links. -/
theorem reachable_proof_sound {table : Definitions} (htable : table.Closed) {sequent : Sequent}
    {p : Proof}
    (h : Proof.Reaches
      (fun _ tactic => tactic.DrawsOn table fun thm => thm.sequent.ValidForClosed table)
      (Proof.start sequent) p) :
    ((∀ n ∈ p.openNodes, n.sequent.Valid table) →
      (∀ n ∈ p.tree.nodes, n.backLink.isSome → n.sequent.Valid table) → sequent.Valid table) ∧
    (p.isComplete → (∀ n ∈ p.tree.nodes, n.backLink = none) → sequent.Valid table) := by
  have hsound : ∀ (j : Judgment) (tactic : Tactic),
      tactic.DrawsOn table (fun thm => thm.sequent.ValidForClosed table) →
      tactic.SoundAt table (fun _ => Term.IsValue) j := fun j tactic ht =>
    Tactic.soundAt_of_drawsOn (fun _ _ hv => hv.vars_eq_nil) (fun _ hthm => hthm)
      (fun _ _ _ _ _ hv => hv) ht
  refine ⟨fun hopen hlink => ?_, fun hcomplete hlinks => ?_⟩
  · exact Proof.validOver_of_frontier htable (fun _ _ hv => hv) hsound h
      (fun n hn hn' => hopen n (List.mem_filter.mpr ⟨hn, hn'⟩)) hlink
  · exact Proof.validOver_of_isComplete htable (fun _ _ hv => hv) hsound h hcomplete hlinks

/-! ### A law of canonical values -/

/-- A fork that takes a leaf, a stem or a fork apart and puts it together again. -/
def Term.rebuild : Term := .fork (.fork .leaf .leaf) .leaf

/-- What is rebuilt is what was there: `rebuild x = x`. -/
def rebuildLaw : Judgment := { goal := ⟨.app .rebuild (.var "x"), .var "x"⟩ }

/-- A proof of the law: split on `x`, and reduce each case. -/
def rebuildScript : List (Text × Tactic) :=
  [("root", .caseSplit ⟨.rhs, []⟩),
   ("root.0", .reduction .lhs), ("root.1", .reduction .lhs), ("root.2", .reduction .lhs),
   ("root.0.0", .reflexivity), ("root.1.0", .reflexivity), ("root.2.0", .reflexivity)]

/-- The split leaves three open nodes that are valid, and the whole script leaves none, so the law
is valid for two reasons. -/
theorem reachable_proof_sound_rebuild :
    let s : Session := .start {} rebuildLaw
    let split := (s.runAll (rebuildScript.take 1)).proof
    let done := (s.runAll rebuildScript).proof
    (split.openNodes.length = 3 ∧
      (∀ n ∈ split.openNodes, n.sequent.Valid Prelude.definitions) ∧
      (∀ n ∈ split.tree.nodes, n.backLink.isSome → n.sequent.Valid Prelude.definitions) ∧
      rebuildLaw.Valid Prelude.definitions) ∧
    done.isComplete ∧ (∀ n ∈ done.tree.nodes, n.backLink = none) ∧
      rebuildLaw.Valid Prelude.definitions := by
  intro s split done
  have hallowed : ∀ call ∈ rebuildScript, ∀ _ : Judgment, call.2.DrawsOn Prelude.definitions
      fun thm => thm.sequent.ValidForClosed Prelude.definitions := by
    simp [rebuildScript, Tactic.DrawsOn]
  have hsplit := s.reaches_runAll (rebuildScript.take 1)
    fun call hcall => hallowed call (List.mem_of_mem_take hcall)
  have hdone := s.reaches_runAll rebuildScript hallowed
  have hlinks : ∀ n ∈ split.tree.nodes, n.backLink = none := by decide
  have hopen : ∀ n ∈ split.openNodes, n.sequent.Valid Prelude.definitions := by
    have hcases : split.openNodes.map (fun n => n.sequent.toJudgment) =
        rebuildLaw.cases "x" := by decide
    intro n hn
    have hmem := List.mem_map_of_mem (f := fun n => n.sequent.toJudgment) hn
    rw [hcases] at hmem
    simp only [Judgment.cases, List.mem_cons, List.not_mem_nil, or_false] at hmem
    -- in each case the left side reduces to the right side
    obtain hmem | hmem | hmem := hmem <;> exact fun σ _ => hmem ▸ fun _ => .contract rfl
  have hlink : ∀ n ∈ split.tree.nodes, n.backLink.isSome → n.sequent.Valid Prelude.definitions := by
    intro n hn h
    rw [hlinks n hn] at h
    cases h
  have hcomplete : done.isComplete := by decide
  have hlinks' : ∀ n ∈ done.tree.nodes, n.backLink = none := by decide
  exact ⟨⟨by decide, hopen, hlink,
      (reachable_proof_sound Prelude.definitions_closed hsplit).1 hopen hlink⟩,
    hcomplete, hlinks',
    (reachable_proof_sound Prelude.definitions_closed hdone).2 hcomplete hlinks'⟩

end TreeCalculus
