import TreeCalculus.Proofs.Confluence
import TreeCalculus.Proofs.Unfolding

/-!
Stability of reduction.

A substitution puts terms in the places of variables, and unfolding puts terms in the places of
references. Both leave leaves and applications as they are, and these are all that the rules look
at. So a redex stays a redex at the same path, and what comes of it is what the substitution or
the unfolding makes of what came of it before. This needs no more than that the two are relations
which take leaves to leaves and applications to applications of related parts.

* `Term.FillsAtoms`, `Term.FillsAtoms.contractsAt`: such relations, and contraction under them.
* `Term.fillsAtoms_subst`, `Term.fillsAtoms_unfoldAll`: substitution and unfolding.
* `Term.contraction_stable`: contraction at a path is stable under both.
-/

namespace TreeCalculus.Term

/-- A relation that puts something in the places of variables and references only: it takes leaves
to leaves, and applications to applications of related parts. -/
structure FillsAtoms (R : Term → Term → Prop) : Prop where
  leaf_inv {t : Term} : R leaf t → t = leaf
  app_iff {l r t : Term} : R (app l r) t ↔ ∃ l' r', R l l' ∧ R r r' ∧ t = app l' r'

namespace FillsAtoms

variable {R : Term → Term → Prop}

lemma app (hR : FillsAtoms R) {l l' r r' : Term} (hl : R l l') (hr : R r r') :
    R (Term.app l r) (Term.app l' r') :=
  hR.app_iff.mpr ⟨l', r', hl, hr, rfl⟩

lemma stem_inv (hR : FillsAtoms R) {x t : Term} (h : R (stem x) t) :
    ∃ x', t = stem x' ∧ R x x' := by
  obtain ⟨l', x', hl, hx, rfl⟩ := hR.app_iff.mp h
  cases hR.leaf_inv hl
  exact ⟨x', rfl, hx⟩

lemma keepsShapes (hR : FillsAtoms R) : KeepsShapes R where
  leaf_inv := hR.leaf_inv
  stem_inv := hR.stem_inv
  fork_inv h := by
    obtain ⟨l', x', hl, hx, rfl⟩ := hR.app_iff.mp h
    obtain ⟨w', rfl, hw⟩ := hR.stem_inv hl
    exact ⟨w', x', rfl, hw, hx⟩
  app := hR.app

/-- Contraction at a path carries over to related terms, at the same path. -/
lemma contractsAt (hR : FillsAtoms R) {t t' u : Term} {path : Path} (h : t.ContractsAt path u)
    (ht : R t t') : ∃ u', R u u' ∧ t'.ContractsAt path u' := by
  induction path generalizing t t' u with
  | nil =>
      have hc : Contracts t u := contract?_eq_some_iff.mp (contractsAt_nil.mp h)
      obtain ⟨l, r, rfl⟩ := exists_app_of_kind h.redexAt.kind_eq
      obtain ⟨l', r', hl, hr, rfl⟩ := hR.app_iff.mp ht
      obtain ⟨u', hc', hu⟩ := hR.keepsShapes.contracts hl hr hc
      exact ⟨u', hu, contractsAt_nil.mpr (contract?_eq_some_iff.mpr hc')⟩
  | cons turn path ih =>
      obtain ⟨l, r, rfl, ⟨rfl, l₁, hl₁, rfl⟩ | ⟨rfl, r₁, hr₁, rfl⟩⟩ := h.cons_inv
      · obtain ⟨l', r', hl, hr, rfl⟩ := hR.app_iff.mp ht
        obtain ⟨l₂, hl₁₂, hl₂⟩ := ih hl₁ hl
        exact ⟨_, hR.app hl₁₂ hr, hl₂.left r'⟩
      · obtain ⟨l', r', hl, hr, rfl⟩ := hR.app_iff.mp ht
        obtain ⟨r₂, hr₁₂, hr₂⟩ := ih hr₁ hr
        exact ⟨_, hR.app hl hr₁₂, hr₂.right l'⟩

/-- A term that is not normal is related to such terms only. -/
lemma isNormal_eq_false (hR : FillsAtoms R) {t t' : Term} (h : t.isNormal = false) (ht : R t t') :
    t'.isNormal = false := by
  obtain ⟨path, u, hpath⟩ := isNormal_eq_false_iff.mp h
  obtain ⟨u', -, hpath'⟩ := hR.contractsAt hpath ht
  exact isNormal_eq_false_iff.mpr ⟨path, u', hpath'⟩

end FillsAtoms

lemma fillsAtoms_subst (s : Substitution) : FillsAtoms fun t t' => t.subst s = t' where
  leaf_inv h := h.symm
  app_iff := by simp [subst, instantiate, eq_comm]

lemma fillsAtoms_unfoldAll (table : Definitions) (depth : Int) :
    FillsAtoms fun t t' => t.unfoldAll table depth = .ok t' where
  leaf_inv h := (Except.ok.inj ((unfoldWithin_leaf table _).symm.trans h)).symm
  app_iff := unfoldWithin_app_eq_ok

/-- **Stability of reduction**: where a term can be contracted, each of its instances can be
contracted at the same path, and gives the instance of the result; and if unfolding the term
succeeds, then unfolding the result succeeds, and gives what contracting the unfolded term at that
path gives. So a term that is not normal stays so under every substitution and every unfolding. -/
theorem contraction_stable (t : Term) :
    (∀ path u, t.ContractsAt path u →
      (∀ s : Substitution, (t.subst s).ContractsAt path (u.subst s)) ∧
        ∀ (table : Definitions) (depth : Int) (t' : Term), t.unfoldAll table depth = .ok t' →
          ∃ u', u.unfoldAll table depth = .ok u' ∧ t'.ContractsAt path u') ∧
    (t.isNormal = false →
      (∀ s : Substitution, (t.subst s).isNormal = false) ∧
        ∀ (table : Definitions) (depth : Int) (t' : Term), t.unfoldAll table depth = .ok t' →
          t'.isNormal = false) := by
  refine ⟨fun path u h => ⟨fun s => ?_, fun table depth t' ht' => ?_⟩,
    fun h => ⟨fun s => ?_, fun table depth t' ht' => ?_⟩⟩
  · obtain ⟨u', rfl, hu'⟩ := (fillsAtoms_subst s).contractsAt h rfl
    exact hu'
  · exact (fillsAtoms_unfoldAll table depth).contractsAt h ht'
  · exact (fillsAtoms_subst s).isNormal_eq_false h rfl
  · exact (fillsAtoms_unfoldAll table depth).isNormal_eq_false h ht'

/-- The argument of `f (△ (△ I) x False)` is a redex that copies `False`. Under a substitution
that makes a redex of the whole term, and after unfolding, it is contracted all the same. -/
theorem contraction_stable_copied_reference :
    let t : Term := app (var "f") (app (fork (stem (ref "I")) (var "x")) (ref "False"))
    let u : Term := app (var "f") (app (app (ref "I") (ref "False")) (app (var "x") (ref "False")))
    let s : Substitution := ⟨[("f", fork leaf leaf), ("x", leaf)]⟩
    (t.ContractsAt [.right] u ∧ (t.subst s).ContractsAt [.right] (u.subst s)) ∧
      (∃ t' u', t.unfoldAll Prelude.definitions 3 = .ok t' ∧
        u.unfoldAll Prelude.definitions 3 = .ok u' ∧ t'.ContractsAt [.right] u') ∧
      t.isNormal = false ∧ (t.subst s).isNormal = false := by
  intro t u s
  have hu : t.ContractsAt [.right] u :=
    .right _ (contractsAt_nil.mpr (contract?_eq_some_iff.mpr (.share ..)))
  have hn : t.isNormal = false := by decide
  obtain ⟨hpaths, hreducible⟩ := contraction_stable t
  obtain ⟨hsubst, hunfold⟩ := hpaths [.right] u hu
  obtain ⟨u', hu', htu'⟩ := hunfold Prelude.definitions 3 _ rfl
  exact ⟨⟨hu, hsubst s⟩, ⟨_, u', rfl, hu', htu'⟩, hn, (hreducible hn).1 s⟩

end TreeCalculus.Term
