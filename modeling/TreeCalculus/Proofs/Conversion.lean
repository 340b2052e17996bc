import TreeCalculus.Proofs.Confluence

/-!
Convertibility.

Two terms are convertible under a table of definitions if reductions and unfoldings, taken in
either direction and anywhere in the terms, lead from one to the other. By confluence convertible
terms have a common reduct, so convertible normal forms without known references are equal.

* `Convertible`: the least congruence that contains the rules of reduction and the definitions.
* `Convertible.join`, `Convertible.eq_of_isNormal`: common reducts, and equality of normal forms.
* `Convertible.instantiate`, `Convertible.instantiate_congr`: replacement of variables in
  convertible terms, and by convertible terms.
-/

namespace TreeCalculus

/-- No definition mentions a variable. -/
def Definitions.Closed (table : Definitions) : Prop :=
  ∀ name body, table.find? name = some body → body.vars = []

namespace Term

open Relation

/-- Convertibility: the least equivalence that application keeps and that contains the rules of
reduction and the definitions of a table. -/
inductive Convertible (table : Definitions) : Term → Term → Prop where
  | refl (t : Term) : Convertible table t t
  | symm {t u : Term} : Convertible table t u → Convertible table u t
  | trans {t u v : Term} : Convertible table t u → Convertible table u v → Convertible table t v
  | app {l l' r r' : Term} :
      Convertible table l l' → Convertible table r r' → Convertible table (app l r) (app l' r')
  | contract {t u : Term} : t.contract? = some u → Convertible table t u
  | unfold {n : Text} {body : Term} : table.find? n = some body → Convertible table (ref n) body

namespace Convertible

variable {table : Definitions}

/-- A step of rewriting is a conversion. -/
lemma of_rewrites {t u : Term} (h : Rewrites t u) : Convertible table t u := by
  obtain ⟨path, redex, result, hs, hc, hu⟩ := h
  exact rel_replace .refl .app hs hu (.contract hc)

lemma of_step? {t u : Term} (h : t.step? = some u) : Convertible table t u :=
  of_rewrites (rewrites_of_step? h)

/-! ### Common reducts -/

/-- Convertible terms have a common reduct. -/
lemma join {t u : Term} (h : Convertible table t u) :
    Join (ReflTransGen (Par table)) t u := by
  induction h with
  | refl t => exact ⟨t, .refl, .refl⟩
  | symm _ ih =>
      obtain ⟨w, htw, huw⟩ := ih
      exact ⟨w, huw, htw⟩
  | trans _ _ ih₁ ih₂ =>
      -- the two common reducts are reached from the term in the middle
      obtain ⟨a, hta, hua⟩ := ih₁
      obtain ⟨b, hub, hvb⟩ := ih₂
      obtain ⟨w, haw, hbw⟩ := Par.join hua hub
      exact ⟨w, hta.trans haw, hvb.trans hbw⟩
  | app _ _ ihl ihr =>
      have happ : ∀ {l l' r r' : Term}, ReflTransGen (Par table) l l' →
          ReflTransGen (Par table) r r' →
          ReflTransGen (Par table) (Term.app l r) (Term.app l' r') :=
        fun {_ l' r _} hl hr =>
          (hl.lift (Term.app · r) fun _ _ h => .app h (.refl r)).trans
            (hr.lift (Term.app l') fun _ _ h => .app (.refl l') h)
      obtain ⟨wl, hl, hl'⟩ := ihl
      obtain ⟨wr, hr, hr'⟩ := ihr
      exact ⟨Term.app wl wr, happ hl hr, happ hl' hr'⟩
  | @contract t u hc =>
      exact ⟨u, .single (.of_contracts (contract?_eq_some_iff.mp hc)), .refl⟩
  | @unfold n body hb => exact ⟨body, .single (.unfold hb), .refl⟩

/-- Convertible normal terms without known references are equal. -/
lemma eq_of_isNormal {t u : Term} (h : Convertible table t u)
    (ht : t.isNormal) (htr : ∀ n ∈ t.refs, table.find? n = none)
    (hu : u.isNormal) (hur : ∀ n ∈ u.refs, table.find? n = none) : t = u := by
  obtain ⟨w, htw, huw⟩ := h.join
  rw [← Par.eq_self_of_reflTransGen htw ht htr, Par.eq_self_of_reflTransGen huw hu hur]

end Convertible

/-! ### Replacement of variables -/

/-- The rules do not look at variables, so they apply after every replacement. -/
lemma Contracts.instantiate {t u : Term} (h : Contracts t u) (σ : Text → Term) :
    Contracts (t.instantiate σ) (u.instantiate σ) := by
  cases h with
  | first y z => exact .first ..
  | share x y z => exact .share ..
  | onLeaf w x y => exact .onLeaf ..
  | onStem w x y v => exact .onStem ..
  | onFork w x y v v' => exact .onFork ..

namespace Convertible

variable {table : Definitions}

/-- Conversion survives every replacement of variables, as long as no definition has any. -/
lemma instantiate (htable : table.Closed) {t u : Term} (h : Convertible table t u)
    (σ : Text → Term) : Convertible table (t.instantiate σ) (u.instantiate σ) := by
  induction h with
  | refl t => exact .refl _
  | symm _ ih => exact ih.symm
  | trans _ _ ih₁ ih₂ => exact ih₁.trans ih₂
  | app _ _ ihl ihr => exact .app ihl ihr
  | contract hc =>
      exact .contract (contract?_eq_some_iff.mpr ((contract?_eq_some_iff.mp hc).instantiate σ))
  | @unfold n body hb =>
      rw [instantiate_eq_self (htable n body hb)]
      exact .unfold hb

/-- Replacing the variables of a term by convertible terms gives convertible terms. -/
lemma instantiate_congr {σ τ : Text → Term} {t : Term}
    (h : ∀ x ∈ t.vars, Convertible table (σ x) (τ x)) :
    Convertible table (t.instantiate σ) (t.instantiate τ) := by
  induction t with
  | leaf => exact .refl _
  | var x => exact h x (by simp)
  | ref n => exact .refl _
  | app l r ihl ihr =>
      exact .app (ihl fun x hx => h x (mem_vars_app.mpr (.inl hx)))
        (ihr fun x hx => h x (mem_vars_app.mpr (.inr hx)))

end Convertible

end Term

end TreeCalculus
