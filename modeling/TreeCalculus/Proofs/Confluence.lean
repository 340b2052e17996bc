import Mathlib.Logic.Relation
import TreeCalculus.Library
import TreeCalculus.Proofs.Strategy
import TreeCalculus.Proofs.Terms

/-!
Confluence of reduction.

Rewriting contracts a redex at any path. The rules do not overlap, but one of them copies an
argument and the others erase theirs, so two steps from one term need not meet after one more step
each. Parallel steps do: they contract any set of redexes at once, and two of them from one term
meet after one further parallel step. The parallel steps here also unfold references, by a table
that may be empty, so that the same argument serves reduction alone and reduction with
definitions.

* `Contracts`, `contract?_eq_some_iff`: the five rules as a relation, and that `contract?` decides
  it.
* `KeepsShapes`, `KeepsShapes.contracts`: relations under which redexes stay redexes.
* `Rewrites`: one step at any path.
* `Par`, `Par.diamond`: parallel steps and their diamond property.
* `Par.eq_self`: a normal term without known references has no parallel step but the trivial one.
* `rewriting_confluent`: confluence of rewriting, and that a normal form reached by the fixed
  strategy is the only one.
-/

namespace TreeCalculus.Term

open Relation

/-! ### The rules -/

/-- The five rules at the root of a term. -/
inductive Contracts : Term → Term → Prop where
  | first (y z : Term) : Contracts (app (fork leaf y) z) y
  | share (x y z : Term) : Contracts (app (fork (stem x) y) z) (app (app x z) (app y z))
  | onLeaf (w x y : Term) : Contracts (app (fork (fork w x) y) leaf) w
  | onStem (w x y u : Term) : Contracts (app (fork (fork w x) y) (stem u)) (app x u)
  | onFork (w x y u v : Term) :
      Contracts (app (fork (fork w x) y) (fork u v)) (app (app y u) v)

/-- Contraction at the root follows the five rules and no other. -/
lemma contract?_eq_some_iff {t u : Term} : t.contract? = some u ↔ Contracts t u := by
  constructor
  · intro h
    unfold contract? at h
    split at h
    · cases h; exact .first ..
    · cases h; exact .share ..
    · split at h
      · cases h; exact .onLeaf ..
      · cases h; exact .onStem ..
      · cases h; exact .onFork ..
      · cases h
    · cases h
  · intro h
    cases h <;> rfl

/-- A relation that application keeps, and under which leaves, stems and forks keep their shape. -/
structure KeepsShapes (R : Term → Term → Prop) : Prop where
  leaf_inv {t : Term} : R leaf t → t = leaf
  stem_inv {x t : Term} : R (stem x) t → ∃ x', t = stem x' ∧ R x x'
  fork_inv {w x t : Term} : R (fork w x) t → ∃ w' x', t = fork w' x' ∧ R w w' ∧ R x x'
  app {l l' r r' : Term} : R l l' → R r r' → R (app l r) (app l' r')

/-- Under such a relation a redex stays a redex, of the same rule, and the results are related:
this is where the shapes of the five rules enter. -/
lemma KeepsShapes.contracts {R : Term → Term → Prop} (hR : KeepsShapes R) {l l' r r' u : Term}
    (hl : R l l') (hr : R r r') (h : Contracts (Term.app l r) u) :
    ∃ u', Contracts (Term.app l' r') u' ∧ R u u' := by
  cases h with
  | first y z =>
      obtain ⟨f', y', rfl, hf, hy⟩ := hR.fork_inv hl
      cases hR.leaf_inv hf
      exact ⟨y', .first y' r', hy⟩
  | share x y z =>
      obtain ⟨f', y', rfl, hf, hy⟩ := hR.fork_inv hl
      obtain ⟨x', rfl, hx⟩ := hR.stem_inv hf
      exact ⟨_, .share x' y' r', hR.app (hR.app hx hr) (hR.app hy hr)⟩
  | onLeaf w x y =>
      obtain ⟨f', y', rfl, hf, hy⟩ := hR.fork_inv hl
      obtain ⟨w', x', rfl, hw, hx⟩ := hR.fork_inv hf
      cases hR.leaf_inv hr
      exact ⟨w', .onLeaf w' x' y', hw⟩
  | onStem w x y v =>
      obtain ⟨f', y', rfl, hf, hy⟩ := hR.fork_inv hl
      obtain ⟨w', x', rfl, hw, hx⟩ := hR.fork_inv hf
      obtain ⟨v', rfl, hv⟩ := hR.stem_inv hr
      exact ⟨_, .onStem w' x' y' v', hR.app hx hv⟩
  | onFork w x y v v₂ =>
      obtain ⟨f', y', rfl, hf, hy⟩ := hR.fork_inv hl
      obtain ⟨w', x', rfl, hw, hx⟩ := hR.fork_inv hf
      obtain ⟨v', v₂', rfl, hv, hv₂⟩ := hR.fork_inv hr
      exact ⟨_, .onFork w' x' y' v' v₂', hR.app (hR.app hy hv) hv₂⟩

/-- In a normal application no rule applies at the root, and both parts are normal. -/
lemma isNormal_app {l r : Term} (h : (app l r).isNormal) :
    (∀ u, ¬ Contracts (app l r) u) ∧ l.isNormal ∧ r.isNormal := by
  rw [isNormal, Option.isNone_iff_eq_none, step?_app_eq_none] at h
  obtain ⟨hroot, hl, hr⟩ := h
  refine ⟨fun u hu => ?_, by simp [isNormal, hl], by simp [isNormal, hr]⟩
  rw [contract?_eq_some_iff.mpr hu] at hroot
  cases hroot

/-! ### Rewriting -/

/-- One step of rewriting: a redex at some path is replaced by what a rule makes of it. -/
def Rewrites (t u : Term) : Prop :=
  ∃ path redex result, t.subterm path = .ok redex ∧ redex.contract? = some result ∧
    t.replace path result = .ok u

lemma Rewrites.root {t u : Term} (h : Contracts t u) : Rewrites t u :=
  ⟨[], contractsAt_nil.mpr (contract?_eq_some_iff.mpr h)⟩

lemma Rewrites.left {l l' : Term} (h : Rewrites l l') (r : Term) :
    Rewrites (app l r) (app l' r) := by
  obtain ⟨path, hpath⟩ := h
  exact ⟨.left :: path, ContractsAt.left hpath r⟩

lemma Rewrites.right {r r' : Term} (l : Term) (h : Rewrites r r') :
    Rewrites (app l r) (app l r') := by
  obtain ⟨path, hpath⟩ := h
  exact ⟨.right :: path, ContractsAt.right l hpath⟩

/-- Rewriting in both parts of an application. -/
lemma rewrites_app {l l' r r' : Term} (hl : ReflTransGen Rewrites l l')
    (hr : ReflTransGen Rewrites r r') : ReflTransGen Rewrites (app l r) (app l' r') :=
  (hl.lift (fun t => app t r) fun _ _ h => h.left r).trans
    (hr.lift (fun t => app l' t) fun _ _ h => h.right l')

/-- The fixed strategy makes one step of rewriting. -/
lemma rewrites_of_step? {t u : Term} (h : t.step? = some u) : Rewrites t u := by
  obtain ⟨path, hpath, -⟩ := exists_first_redex h
  exact ⟨path, hpath⟩

/-- Bounded reduction rewrites. -/
lemma rewrites_reduceFrom (done bound : Nat) (t : Term) :
    ReflTransGen Rewrites t (t.reduceFrom done bound).1 := by
  induction bound generalizing done t with
  | zero => exact .refl
  | succ bound ih =>
      rw [reduceFrom]
      cases h : t.step? with
      | none => exact .refl
      | some t' => exact .head (rewrites_of_step? h) (ih (done + 1) t')

/-! ### Parallel steps -/

/-- A parallel step: any redexes are contracted and any known references unfolded, from the inside
out. -/
inductive Par (table : Definitions) : Term → Term → Prop where
  | leaf : Par table leaf leaf
  | var (x : Text) : Par table (var x) (var x)
  | ref (n : Text) : Par table (ref n) (ref n)
  | app {l l' r r' : Term} : Par table l l' → Par table r r' → Par table (app l r) (app l' r')
  | contract {l l' r r' u : Term} :
      Par table l l' → Par table r r' → Contracts (app l' r') u → Par table (app l r) u
  | unfold {n : Text} {body : Term} : table.find? n = some body → Par table (ref n) body

namespace Par

variable {table : Definitions}

lemma refl (t : Term) : Par table t t := by
  induction t with
  | leaf => exact .leaf
  | var x => exact .var x
  | ref n => exact .ref n
  | app l r ihl ihr => exact .app ihl ihr

/-- An application steps in its parts, and is then contracted or not. -/
lemma app_inv {l r u : Term} (h : Par table (Term.app l r) u) :
    ∃ l' r', Par table l l' ∧ Par table r r' ∧
      (u = Term.app l' r' ∨ Contracts (Term.app l' r') u) := by
  cases h with
  | app hl hr => exact ⟨_, _, hl, hr, .inl rfl⟩
  | contract hl hr hc => exact ⟨_, _, hl, hr, .inr hc⟩

/-- A stem stays a stem. -/
lemma stem_inv {x t : Term} (h : Par table (stem x) t) : ∃ x', t = stem x' ∧ Par table x x' := by
  cases h with
  | app hl hx =>
      cases hl
      exact ⟨_, rfl, hx⟩
  | contract hl hx hc =>
      cases hl
      cases hc

/-- A fork stays a fork. -/
lemma fork_inv {w x t : Term} (h : Par table (fork w x) t) :
    ∃ w' x', t = fork w' x' ∧ Par table w w' ∧ Par table x x' := by
  cases h with
  | app hl hx =>
      obtain ⟨w', rfl, hw⟩ := stem_inv hl
      exact ⟨w', _, rfl, hw, hx⟩
  | contract hl hx hc =>
      obtain ⟨w', rfl, hw⟩ := stem_inv hl
      cases hc

lemma keepsShapes : KeepsShapes (Par table) where
  leaf_inv h := by
    cases h
    rfl
  stem_inv := stem_inv
  fork_inv := fork_inv
  app := .app

end Par

/-- Contraction at the root gives one result. -/
lemma Contracts.unique {t u v : Term} (hu : Contracts t u) (hv : Contracts t v) : u = v := by
  rw [← contract?_eq_some_iff] at hu hv
  exact Option.some.inj (hu.symm.trans hv)

namespace Par

variable {table : Definitions}

/-- **The diamond property**: two parallel steps from one term meet after one more. -/
theorem diamond {t u v : Term} (hu : Par table t u) (hv : Par table t v) :
    ∃ w, Par table u w ∧ Par table v w := by
  induction t generalizing u v with
  | leaf =>
      cases hu
      exact ⟨v, hv, refl v⟩
  | var x =>
      cases hu
      exact ⟨v, hv, refl v⟩
  | ref n =>
      cases hu with
      | ref => exact ⟨v, hv, refl v⟩
      | unfold hb =>
          cases hv with
          | ref => exact ⟨u, refl u, .unfold hb⟩
          | unfold hb' =>
              obtain rfl : u = v := Option.some.inj (hb.symm.trans hb')
              exact ⟨u, refl u, refl u⟩
  | app l r ihl ihr =>
      obtain ⟨l₁, r₁, hl₁, hr₁, hu⟩ := app_inv hu
      obtain ⟨l₂, r₂, hl₂, hr₂, hv⟩ := app_inv hv
      obtain ⟨l₃, hl₁₃, hl₂₃⟩ := ihl hl₁ hl₂
      obtain ⟨r₃, hr₁₃, hr₂₃⟩ := ihr hr₁ hr₂
      -- the parts meet by induction; a contraction of either side is carried along to where they do
      rcases hu with rfl | hu
      · rcases hv with rfl | hv
        · exact ⟨Term.app l₃ r₃, .app hl₁₃ hr₁₃, .app hl₂₃ hr₂₃⟩
        · obtain ⟨w, hw, hvw⟩ := keepsShapes.contracts hl₂₃ hr₂₃ hv
          exact ⟨w, .contract hl₁₃ hr₁₃ hw, hvw⟩
      · obtain ⟨w, hw, huw⟩ := keepsShapes.contracts hl₁₃ hr₁₃ hu
        rcases hv with rfl | hv
        · exact ⟨w, huw, .contract hl₂₃ hr₂₃ hw⟩
        · obtain ⟨w', hw', hvw⟩ := keepsShapes.contracts hl₂₃ hr₂₃ hv
          obtain rfl : w = w' := hw.unique hw'
          exact ⟨w, huw, hvw⟩

/-- Parallel steps are confluent. -/
lemma join {t u v : Term} (hu : ReflTransGen (Par table) t u) (hv : ReflTransGen (Par table) t v) :
    Join (ReflTransGen (Par table)) u v := by
  refine Relation.church_rosser (fun a b c hb hc => ?_) hu hv
  obtain ⟨d, hbd, hcd⟩ := diamond hb hc
  exact ⟨d, .single hbd, .single hcd⟩

/-- Contraction at the root is a parallel step. -/
lemma of_contracts {t u : Term} (h : Contracts t u) : Par table t u := by
  cases t with
  | app l r => exact .contract (refl l) (refl r) h
  | leaf => cases h
  | var x => cases h
  | ref n => cases h

/-- A step of rewriting is a parallel step. -/
lemma of_rewrites {t u : Term} (h : Rewrites t u) : Par table t u := by
  obtain ⟨path, redex, result, hs, hc, hu⟩ := h
  exact rel_replace refl .app hs hu (of_contracts (contract?_eq_some_iff.mp hc))

lemma of_rewrites_many {t u : Term} (h : ReflTransGen Rewrites t u) :
    ReflTransGen (Par table) t u :=
  ReflTransGen.mono (fun _ _ => of_rewrites) _ _ h

/-- Without definitions a parallel step is made of steps of rewriting. -/
lemma rewrites {t u : Term} (h : Par .empty t u) : ReflTransGen Rewrites t u := by
  induction h with
  | leaf => exact .refl
  | var x => exact .refl
  | ref n => exact .refl
  | app _ _ ihl ihr => exact rewrites_app ihl ihr
  | contract _ _ hc ihl ihr => exact (rewrites_app ihl ihr).tail (.root hc)
  | unfold hb => cases hb

/-- A normal term without known references has no parallel step but the trivial one. -/
lemma eq_self {t u : Term} (h : Par table t u) (hn : t.isNormal)
    (hr : ∀ n ∈ t.refs, table.find? n = none) : u = t := by
  induction h with
  | leaf => rfl
  | var x => rfl
  | ref n => rfl
  | app _ _ ihl ihr =>
      obtain ⟨-, hnl, hnr⟩ := isNormal_app hn
      rw [ihl hnl fun n h => hr n (List.mem_append_left _ h),
        ihr hnr fun n h => hr n (List.mem_append_right _ h)]
  | contract _ _ hc ihl ihr =>
      obtain ⟨hroot, hnl, hnr⟩ := isNormal_app hn
      rw [ihl hnl fun n h => hr n (List.mem_append_left _ h),
        ihr hnr fun n h => hr n (List.mem_append_right _ h)] at hc
      exact absurd hc (hroot _)
  | unfold hb =>
      rw [hr _ (List.mem_singleton_self _)] at hb
      cases hb

/-- Nor has it any sequence of parallel steps but the trivial one. -/
lemma eq_self_of_reflTransGen {t u : Term} (h : ReflTransGen (Par table) t u) (hn : t.isNormal)
    (hr : ∀ n ∈ t.refs, table.find? n = none) : u = t := by
  induction h with
  | refl => rfl
  | tail _ hstep ih => exact (ih ▸ hstep).eq_self hn hr

end Par

/-! ### Confluence -/

/-- Two terms reached from one by rewriting can be rewritten to a common term. -/
lemma rewrites_join {t u v : Term} (hu : ReflTransGen Rewrites t u)
    (hv : ReflTransGen Rewrites t v) :
    ∃ w, ReflTransGen Rewrites u w ∧ ReflTransGen Rewrites v w := by
  have hrew : ∀ {a b : Term}, ReflTransGen (Par .empty) a b → ReflTransGen Rewrites a b := by
    intro a b h
    induction h with
    | refl => exact .refl
    | tail _ hstep ih => exact ih.trans hstep.rewrites
  obtain ⟨w, huw, hvw⟩ := Par.join (Par.of_rewrites_many hu) (Par.of_rewrites_many hv)
  exact ⟨w, hrew huw, hrew hvw⟩

/-- A normal term is not rewritten any more. -/
lemma eq_of_rewrites_of_isNormal {t u : Term} (h : ReflTransGen Rewrites t u)
    (hn : t.isNormal) : u = t :=
  Par.eq_self_of_reflTransGen (Par.of_rewrites_many h : ReflTransGen (Par .empty) t u) hn
    fun _ _ => rfl

/-- **Confluence**: whatever redexes are contracted in whatever order, two terms reached from `t`
have a common reduct; so if bounded reduction of `t` ends in a normal term, then that is the only
normal term that can be reached from `t`. -/
theorem rewriting_confluent (t : Term) :
    (∀ u v, ReflTransGen Rewrites t u → ReflTransGen Rewrites t v →
      ∃ w, ReflTransGen Rewrites u w ∧ ReflTransGen Rewrites v w) ∧
    ∀ (bound : Int) (u : Term), (t.reduce bound).term.isNormal → ReflTransGen Rewrites t u →
      u.isNormal → u = (t.reduce bound).term := by
  refine ⟨fun u v => rewrites_join, fun bound u hn hu hun => ?_⟩
  have hreduce : ReflTransGen Rewrites t (t.reduce bound).term := rewrites_reduceFrom 0 _ t
  obtain ⟨w, huw, hnw⟩ := rewrites_join hu hreduce
  rw [← eq_of_rewrites_of_isNormal huw hun, eq_of_rewrites_of_isNormal hnw hn]

/-- A redex that a step at the root copies: the two steps from `△ (△ △) △ (△ △ △ △)` do not meet
after one more each, but they do in the end, and in the normal form that bounded reduction finds. -/
theorem rewriting_confluent_copied_redex :
    let z := app (fork leaf leaf) leaf
    let t := app (fork (stem leaf) leaf) z
    let u := app (stem z) (stem z)
    let v := app (fork (stem leaf) leaf) leaf
    (Rewrites t u ∧ Rewrites t v ∧
      ∃ w, ReflTransGen Rewrites u w ∧ ReflTransGen Rewrites v w) ∧
    (t.reduce 5).term.isNormal ∧ ReflTransGen Rewrites t (fork leaf (stem leaf)) ∧
      fork leaf (stem leaf) = (t.reduce 5).term := by
  intro z t u v
  have hz : Rewrites z leaf := .root (.first leaf leaf)
  have hu : Rewrites t u := .root (.share leaf leaf z)
  have hv : Rewrites t v := hz.right _
  have hn : ReflTransGen Rewrites t (fork leaf (stem leaf)) :=
    .tail (.single hv) (.root (.share leaf leaf leaf))
  have hr : (t.reduce 5).term.isNormal := by decide
  exact ⟨⟨hu, hv, (rewriting_confluent t).1 u v (.single hu) (.single hv)⟩, hr, hn,
    (rewriting_confluent t).2 5 _ hr hn (by decide)⟩

end TreeCalculus.Term
