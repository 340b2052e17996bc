import TreeCalculus.Proofs.Coherence
import TreeCalculus.Proofs.Documents

/-!
Histories: everything that can happen to a proof.

A proof is resumed by calls of tactics, successful or not, by rebuilding its index, and by saving
and loading it; it is edited if nodes may also be closed directly, by any rule with any subgoals
and any link. Whatever happens, a coherent proof stays coherent, and its tree stays as it is or
one of its open nodes is closed.

* `Proof.Begins`: the proofs with which work begins.
* `Proof.Resumes`, `Proof.Edits`: one step of either kind.
* `Proof.Resumes.elim`, `Proof.Edits.elim`: what one step does.
* `Proof.Edits.invariant`: a condition on trees that closing an open node keeps holds along every
  history.
-/

namespace TreeCalculus.Proof

open Relation

/-! ### Beginnings and steps -/

/-- One step with a proof: any tactic is called at any node, the index is rebuilt, or the proof is
saved and loaded. -/
inductive Resumes (p : Proof) : Proof → Prop where
  | call {q : Proof} (h : Calls (fun _ _ => True) p q) : Resumes p q
  | reindex : Resumes p p.reindex
  | reload {q : Proof} (h : load p.save = .ok q.embed) : Resumes p q

/-- One step with a proof, or a request to close any node by any rule, with any subgoals and any
link; the request may come to nothing. -/
inductive Edits (p : Proof) : Proof → Prop where
  | resume {q : Proof} (h : Resumes p q) : Edits p q
  | applyRule (supply : Supply) (id : Text) (rule : Rule) (subgoals : List Sequent)
      (link : Option Text) :
      Edits p (Session.applyRule ⟨p, supply⟩ id rule subgoals link).session.proof

/-- The proofs with which work begins: those of one open goal, and those read from any value that
has the form of a saved proof and strings for names. -/
inductive Begins : Proof → Prop where
  | start (sequent : Sequent) : Begins (start sequent)
  | read {v : Json.Value} {p : Proof} (h : ofValue v = .ok p.embed) : Begins p

variable {p q : Proof}

lemma Begins.coherent (h : Begins p) : p.Coherent := by
  cases h with
  | start sequent => exact coherent_start sequent
  | read h =>
      obtain ⟨tree, rfl⟩ := exists_of_ofValue h
      exact coherent_ofTree tree

/-! ### What a step does -/

namespace Coherent

/-- Rebuilding the index of a coherent proof leaves the tree alone. -/
lemma tree_reindex (hp : p.Coherent) : p.reindex.tree = p.tree := hp.linked

/-- A coherent proof comes back from its saved form with the same tree. -/
lemma tree_load (hp : p.Coherent) (h : load p.save = .ok q.embed) :
    q.Coherent ∧ q.tree = p.tree := by
  rw [load_save] at h
  obtain rfl := embed_injective (Except.ok.inj h)
  exact ⟨coherent_ofTree p.tree, hp.tree_reindex⟩

/-- Calls of tactics keep a proof coherent. -/
lemma calls {allowed : Judgment → Tactic → Prop} (hp : p.Coherent) (h : Calls allowed p q) :
    q.Coherent := by
  obtain ⟨supply, id, tactic, -⟩ := h
  obtain heq | ⟨node, closing, subgoals, -, -, -, happly⟩ :=
    Session.proof_run ⟨p, supply⟩ id tactic
  · rwa [heq]
  · exact hp.applyRule happly

end Coherent

/-- **What a resuming step does**: it leaves the tree alone, or a tactic closes an open node as it
asks. -/
theorem Resumes.elim (hp : p.Coherent) (h : Resumes p q) :
    q.Coherent ∧ (q.tree = p.tree ∨
      ∃ position part, ∃ (tactic : Tactic) (closing : Closing) (subgoals : List Sequent),
        p.tree.at? position = some part ∧ part.label.isOpen ∧
        tactic.closing p part.label.id part.label = .ok closing ∧
        subgoals.map Sequent.toJudgment = closing.subgoals ∧
        q.tree = p.tree.modify (closeRoot closing.rule closing.backLink
          (newChildren part.label.id 0 subgoals)) position) := by
  cases h with
  | call h =>
      refine ⟨hp.calls h, ?_⟩
      obtain ⟨-, rfl | ⟨position, part, tactic, closing, subgoals, hpart, hopen, -, hclosing,
        hsubgoals, htree⟩⟩ := h.elim hp.indexed
      · exact .inl rfl
      · exact .inr ⟨position, part, tactic, closing, subgoals, hpart, hopen, hclosing, hsubgoals,
          htree⟩
  | reindex => exact ⟨coherent_ofTree p.tree, .inl hp.tree_reindex⟩
  | reload h =>
      obtain ⟨hq, htree⟩ := hp.tree_load h
      exact ⟨hq, .inl htree⟩

/-- **What an editing step does**: it leaves the tree alone, or one open node is closed. -/
theorem Edits.elim (hp : p.Coherent) (h : Edits p q) :
    q.Coherent ∧ (q.tree = p.tree ∨
      ∃ position part rule link subgoals, p.tree.at? position = some part ∧ part.label.isOpen ∧
        q.tree = p.tree.modify (closeRoot rule link (newChildren part.label.id 0 subgoals))
          position) := by
  cases h with
  | resume h =>
      obtain ⟨hq, htree | ⟨position, part, tactic, closing, subgoals, hpart, hopen, -, -, htree⟩⟩ :=
        h.elim hp
      · exact ⟨hq, .inl htree⟩
      · exact ⟨hq, .inr ⟨position, part, closing.rule, closing.backLink, subgoals, hpart, hopen,
          htree⟩⟩
  | applyRule supply id rule subgoals link =>
      cases happly : p.applyRule id rule subgoals link with
      | none =>
          simp only [Session.applyRule, happly]
          exact ⟨hp, .inl trivial⟩
      | some q =>
          simp only [Session.applyRule, happly]
          refine ⟨hp.applyRule happly, .inr ?_⟩
          obtain ⟨position, part, hposition, hpart, hopen, rfl⟩ := applyRule_eq_some.mp happly
          obtain rfl := hp.indexed.id_eq hposition hpart
          exact ⟨position, part, rule, link, subgoals, hpart, hopen, rfl⟩

/-! ### Whole histories -/

/-- **Conditions along histories**: a condition on trees that survives the closing of an open node
holds after every history if it holds before, and the proof stays coherent. -/
theorem Edits.invariant {P : Derivation → Prop}
    (hclose : ∀ (tree part : Derivation) position rule link (subgoals : List Sequent), P tree →
      tree.at? position = some part → part.label.isOpen →
      P (tree.modify (closeRoot rule link (newChildren part.label.id 0 subgoals)) position))
    (hp : p.Coherent) (htree : P p.tree) (h : ReflTransGen Edits p q) : q.Coherent ∧ P q.tree := by
  induction h with
  | refl => exact ⟨hp, htree⟩
  | tail _ hstep ih =>
      obtain ⟨hcoherent, hP⟩ := ih
      obtain ⟨hcoherent', heq | ⟨position, part, rule, link, subgoals, hpart, hopen, heq⟩⟩ :=
        hstep.elim hcoherent
      · exact ⟨hcoherent', heq ▸ hP⟩
      · exact ⟨hcoherent', heq ▸ hclose _ part position rule link subgoals hP hpart hopen⟩

/-- Every history keeps a coherent proof coherent. -/
lemma Coherent.edits (hp : p.Coherent) (h : ReflTransGen Edits p q) : q.Coherent :=
  (Edits.invariant (P := fun _ => True) (fun _ _ _ _ _ _ _ _ _ => trivial) hp trivial h).1

/-- A run of tactics resumes a proof. -/
lemma resumes_of_reaches (h : Reaches (fun _ _ => True) p q) : ReflTransGen Resumes p q :=
  ReflTransGen.mono (fun _ _ => Resumes.call) p q h

/-- A script of tactics resumes a proof. -/
lemma resumes_runAll (s : Session) (script : List (Text × Tactic)) :
    ReflTransGen Resumes s.proof (s.runAll script).proof :=
  resumes_of_reaches (s.reaches_runAll script fun _ _ _ => trivial)

/-- What is resumed is edited. -/
lemma edits_of_resumes (h : ReflTransGen Resumes p q) : ReflTransGen Edits p q :=
  ReflTransGen.mono (fun _ _ => Edits.resume) p q h

end TreeCalculus.Proof
