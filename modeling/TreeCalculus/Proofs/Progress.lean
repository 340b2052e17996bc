import TreeCalculus.Proofs.CaseSplits
import TreeCalculus.Proofs.Confluence

/-!
Progress of closed terms.

A term is closed if it has neither variables nor references. The operator of a closed normal
application is a canonical value by induction, and it cannot be a fork: the first argument of the
fork is a leaf, a stem or a fork, and in the last case so is the argument of the application, so
that one of the five rules applies. Hence the application is a stem or a fork itself. Rewriting
creates no variables and no references, so it keeps terms closed, and where it ends, it ends in
one of the three shapes of a case split.

* `Term.Closed`: terms without variables and references.
* `Term.exists_contracts_of_isValue`: the rules cover every application of a fork to a value.
* `Term.IsValue.step?_eq_none`, `Term.Closed.isValue`: values are normal, and closed normal terms
  are values.
* `Term.Closed.rewrites`: rewriting keeps terms closed.
* `Term.closed_normal_iff_value`: progress.
-/

namespace TreeCalculus.Term

open Relation

/-- A closed term has neither variables nor references. -/
def Closed (t : Term) : Prop := t.vars = [] ∧ t.refs = []

@[simp] lemma closed_leaf : leaf.Closed := ⟨rfl, rfl⟩

@[simp] lemma closed_app {l r : Term} : (app l r).Closed ↔ l.Closed ∧ r.Closed := by
  simp only [Closed, vars_app_eq_nil, refs, List.append_eq_nil_iff]
  exact and_and_and_comm

/-! ### Normal terms and values -/

/-- One of the rules applies to a fork with an argument, if the first argument of the fork and the
argument are values. -/
lemma exists_contracts_of_isValue {v z : Term} (hv : v.IsValue) (hz : z.IsValue) (y : Term) :
    ∃ u, Contracts (app (fork v y) z) u := by
  cases hv with
  | leaf => exact ⟨_, .first ..⟩
  | stem _ => exact ⟨_, .share ..⟩
  | fork _ _ =>
      cases hz with
      | leaf => exact ⟨_, .onLeaf ..⟩
      | stem _ => exact ⟨_, .onStem ..⟩
      | fork _ _ => exact ⟨_, .onFork ..⟩

/-- Canonical values are normal. -/
lemma IsValue.step?_eq_none {v : Term} (h : v.IsValue) : v.step? = none := by
  induction h with
  | leaf => rfl
  | stem _ ih => exact step?_app_eq_none.mpr ⟨rfl, rfl, ih⟩
  | fork _ _ ihv ihw =>
      exact step?_app_eq_none.mpr ⟨rfl, step?_app_eq_none.mpr ⟨rfl, rfl, ihv⟩, ihw⟩

/-- Closed normal terms are canonical values. -/
lemma Closed.isValue {t : Term} (ht : t.Closed) (hn : t.isNormal) : t.IsValue := by
  induction t with
  | leaf => exact .leaf
  | var x => cases ht.1
  | ref n => cases ht.2
  | app l r ihl ihr =>
      obtain ⟨hl, hr⟩ := closed_app.mp ht
      obtain ⟨hroot, hnl, hnr⟩ := isNormal_app hn
      have hvr : r.IsValue := ihr hr hnr
      cases ihl hl hnl with
      | leaf => exact .stem hvr
      | stem hv => exact .fork hv hvr
      | fork hv hw =>
          obtain ⟨u, hu⟩ := exists_contracts_of_isValue hv hvr _
          exact absurd hu (hroot u)

/-! ### Rewriting of closed terms -/

/-- The rules copy and erase, but they create no variables and no references. -/
lemma Contracts.closed {t u : Term} (h : Contracts t u) (ht : t.Closed) : u.Closed := by
  cases h <;> simp_all [stem, fork]

/-- Rewriting keeps terms closed. -/
lemma Closed.rewrites {t u : Term} (ht : t.Closed) (h : ReflTransGen Rewrites t u) : u.Closed := by
  induction h with
  | refl => exact ht
  | tail _ hstep ih =>
      obtain ⟨path, redex, result, hs, hc, hu⟩ := hstep
      refine rel_replace (R := fun t u => t.Closed → u.Closed) (fun _ h => h)
        (fun hl hr h => ?_) hs hu (contract?_eq_some_iff.mp hc).closed ih
      obtain ⟨h₁, h₂⟩ := closed_app.mp h
      exact closed_app.mpr ⟨hl h₁, hr h₂⟩

/-- **Progress**: a closed term is normal iff it is a canonical value. So whatever redexes are
contracted in a closed term, in whatever order, a term without a redex is a leaf, or a stem or a
fork of canonical values: an instance of one of the shapes of a case split. -/
theorem closed_normal_iff_value {t : Term} (ht : t.Closed) :
    (t.isNormal ↔ t.IsValue) ∧
      ∀ u, ReflTransGen Rewrites t u → u.isNormal → ∀ y z : Text, z ≠ y →
        ∃ shape ∈ shapes y z, ∃ s : Substitution, s.GivesValues shape.vars ∧ shape.subst s = u := by
  refine ⟨⟨ht.isValue, fun h => by simp [isNormal, h.step?_eq_none]⟩, fun u hu hn y z hzy => ?_⟩
  have hvalue : u.IsValue := (ht.rewrites hu).isValue hn
  obtain ⟨shape, s, hshape, hs, hvalues, -⟩ := exists_shape_of_isValue hvalue hzy .empty
  exact ⟨shape, List.mem_of_getElem? hshape, s, hvalues, hs⟩

/-- A triage whose argument is still to be reduced: `△ (△ △ △) △ (△ △ (△ △ △) △)` is closed and
neither normal nor a value. Its argument becomes a fork, and then so does the whole term. -/
theorem closed_normal_iff_value_triage :
    let t := app (fork (fork leaf leaf) leaf) (app (fork leaf (fork leaf leaf)) leaf)
    let u := fork leaf leaf
    (t.Closed ∧ (t.isNormal ↔ t.IsValue) ∧ t.isNormal = false) ∧
      ReflTransGen Rewrites t u ∧ u.isNormal ∧
      ∃ shape ∈ shapes "y" "z", ∃ s : Substitution,
        s.GivesValues shape.vars ∧ shape.subst s = u := by
  intro t u
  have ht : t.Closed := ⟨rfl, rfl⟩
  have hu : ReflTransGen Rewrites t u :=
    .tail (.single (.right _ (.root (.first ..)))) (.root (.onFork ..))
  obtain ⟨hiff, hshapes⟩ := closed_normal_iff_value ht
  exact ⟨⟨ht, hiff, by decide⟩, hu, rfl, hshapes u hu rfl "y" "z" (by decide)⟩

end TreeCalculus.Term
