import Mathlib.Data.List.Lex
import TreeCalculus.Proofs.Paths
import TreeCalculus.Reduction

/-!
The strategy of reduction.

A redex is a place of a term at which a rule applies, given by its path. The places are ordered as
a walk in pre-order meets them: a place before those below it, and the operator of an application
before its argument. A step looks at the root, then in the operator, then in the argument, and so
it contracts the first redex in this order.

* `Path.Before`: the order of places; any two of them are comparable.
* `Term.RedexAt`, `Term.ContractsAt`: redexes, and contraction at a path.
* `Term.step?_app_eq_none`, `Term.step?_app_eq_some`: a step of an application, read backwards.
* `Term.step?_eq_none_iff`, `Term.isNormal_eq_false_iff`, `Term.exists_first_redex`: no step
  without a redex, and a step at the first one.
* `Term.step?_contracts_first_redex`: a step is the contraction of the first redex, and nothing
  else.
-/

namespace TreeCalculus

/-! ### The order of places -/

/-- The operator of an application comes before its argument. -/
def Turn.Before (a b : Turn) : Prop := a = .left ∧ b = .right

instance : Std.Trichotomous Turn.Before where
  trichotomous a b hab hba := by
    cases a <;> cases b <;> simp_all [Turn.Before]

/-- The order in which a walk in pre-order meets the places of a term: a place comes before those
below it, and the places in the operator of an application before those in its argument. -/
def Path.Before : Path → Path → Prop := List.Lex Turn.Before

/-- Two places are the same, or one comes before the other. -/
lemma Path.eq_of_not_before {p q : Path} (hpq : ¬ Path.Before p q) (hqp : ¬ Path.Before q p) :
    p = q :=
  Std.Trichotomous.trichotomous (r := List.Lex Turn.Before) p q hpq hqp

lemma Path.not_before_nil (p : Path) : ¬ Path.Before p [] := nofun

/-- Behind the first turn to the left only the operator counts, and the root comes first. -/
lemma Path.before_left {p q : Path} (h : Path.Before p (.left :: q)) :
    p = [] ∨ ∃ p', p = .left :: p' ∧ Path.Before p' q := by
  cases h with
  | nil => exact .inl rfl
  | cons h => exact .inr ⟨_, rfl, h⟩
  | rel h => cases h.2

/-- Behind the first turn to the right, all of the operator comes before. -/
lemma Path.before_right {p q : Path} (h : Path.Before p (.right :: q)) :
    p = [] ∨ (∃ p', p = .left :: p') ∨ ∃ p', p = .right :: p' ∧ Path.Before p' q := by
  cases h with
  | nil => exact .inl rfl
  | cons h => exact .inr (.inr ⟨_, rfl, h⟩)
  | rel h =>
      obtain ⟨rfl, -⟩ := h
      exact .inr (.inl ⟨_, rfl⟩)

namespace Term

/-! ### Redexes -/

/-- A rule applies to the subterm at a path. -/
def RedexAt (t : Term) (path : Path) : Prop :=
  ∃ redex result, t.subterm path = .ok redex ∧ redex.contract? = some result

/-- A rule applies to the subterm at a path, and `u` is what comes of it. -/
def ContractsAt (t : Term) (path : Path) (u : Term) : Prop :=
  ∃ redex result, t.subterm path = .ok redex ∧ redex.contract? = some result ∧
    t.replace path result = .ok u

lemma ContractsAt.redexAt {t u : Term} {path : Path} (h : t.ContractsAt path u) :
    t.RedexAt path := by
  obtain ⟨redex, result, hs, hc, -⟩ := h
  exact ⟨redex, result, hs, hc⟩

/-- Contraction at a path has one result. -/
lemma ContractsAt.unique {t u v : Term} {path : Path} (hu : t.ContractsAt path u)
    (hv : t.ContractsAt path v) : u = v := by
  obtain ⟨redex, result, hs, hc, hu⟩ := hu
  obtain ⟨redex', result', hs', hc', hv⟩ := hv
  cases hs.symm.trans hs'
  cases hc.symm.trans hc'
  exact Except.ok.inj (hu.symm.trans hv)

lemma contractsAt_nil {t u : Term} : t.ContractsAt [] u ↔ t.contract? = some u := by
  constructor
  · rintro ⟨redex, result, hs, hc, hu⟩
    rw [subterm_nil] at hs
    rw [replace_nil] at hu
    cases hs
    cases hu
    exact hc
  · exact fun h => ⟨t, u, subterm_nil t, h, replace_nil t u⟩

lemma ContractsAt.left {l l' : Term} {path : Path} (h : l.ContractsAt path l') (r : Term) :
    (app l r).ContractsAt (.left :: path) (app l' r) := by
  obtain ⟨redex, result, hs, hc, hu⟩ := h
  exact ⟨redex, result, subterm_left.mpr hs, hc, replace_left hu r⟩

lemma ContractsAt.right {r r' : Term} {path : Path} (l : Term) (h : r.ContractsAt path r') :
    (app l r).ContractsAt (.right :: path) (app l r') := by
  obtain ⟨redex, result, hs, hc, hu⟩ := h
  exact ⟨redex, result, subterm_right.mpr hs, hc, replace_right l hu⟩

/-- Contraction behind a first turn is contraction in that part of an application. -/
lemma ContractsAt.cons_inv {t u : Term} {turn : Turn} {path : Path}
    (h : t.ContractsAt (turn :: path) u) :
    ∃ l r, t = app l r ∧
      ((turn = .left ∧ ∃ l', l.ContractsAt path l' ∧ u = app l' r) ∨
        (turn = .right ∧ ∃ r', r.ContractsAt path r' ∧ u = app l r')) := by
  obtain ⟨redex, result, hs, hc, hu⟩ := h
  obtain ⟨l, r, rfl, ⟨rfl, l', hl, rfl⟩ | ⟨rfl, r', hr, rfl⟩⟩ := replace_cons_eq_ok hu
  · exact ⟨l, r, rfl, .inl ⟨rfl, l', ⟨redex, result, subterm_left.mp hs, hc, hl⟩, rfl⟩⟩
  · exact ⟨l, r, rfl, .inr ⟨rfl, r', ⟨redex, result, subterm_right.mp hs, hc, hr⟩, rfl⟩⟩

lemma redexAt_nil {t : Term} : t.RedexAt [] ↔ t.contract? ≠ none := by
  simp [RedexAt, Option.ne_none_iff_exists']

lemma redexAt_left {l r : Term} {path : Path} :
    (app l r).RedexAt (.left :: path) ↔ l.RedexAt path := by
  simp only [RedexAt, subterm_left]

lemma redexAt_right {l r : Term} {path : Path} :
    (app l r).RedexAt (.right :: path) ↔ r.RedexAt path := by
  simp only [RedexAt, subterm_right]

/-- Only applications have redexes. -/
lemma RedexAt.kind_eq {t : Term} {path : Path} (h : t.RedexAt path) : t.kind = .app := by
  by_contra hkind
  obtain ⟨redex, result, hs, hc⟩ := h
  cases path with
  | nil =>
      rw [subterm_nil] at hs
      cases hs
      cases t <;> simp [kind, contract?] at hkind hc
  | cons turn rest =>
      rw [subterm, subtermFrom_cons_of_kind_ne hkind] at hs
      cases hs

/-- An application has no redex iff none is at the root, in the operator or in the argument. -/
lemma forall_not_redexAt_app {l r : Term} : (∀ path, ¬ (app l r).RedexAt path) ↔
    (app l r).contract? = none ∧ (∀ path, ¬ l.RedexAt path) ∧ ∀ path, ¬ r.RedexAt path := by
  constructor
  · intro h
    refine ⟨?_, fun path hl => h _ (redexAt_left.mpr hl), fun path hr => h _ (redexAt_right.mpr hr)⟩
    by_contra hroot
    exact h [] (redexAt_nil.mpr hroot)
  · rintro ⟨hroot, hl, hr⟩ path hredex
    match path with
    | [] => exact redexAt_nil.mp hredex hroot
    | .left :: rest => exact hl rest (redexAt_left.mp hredex)
    | .right :: rest => exact hr rest (redexAt_right.mp hredex)

/-! ### Steps -/

/-- An application has no step iff no rule applies at the root and neither part has a step. -/
lemma step?_app_eq_none {l r : Term} :
    (app l r).step? = none ↔ (app l r).contract? = none ∧ l.step? = none ∧ r.step? = none := by
  rw [step?]
  cases (app l r).contract? <;> cases l.step? <;> cases r.step? <;> simp

/-- A step of an application is made at the root, else in the operator, else in the argument. -/
lemma step?_app_eq_some {l r u : Term} :
    (app l r).step? = some u ↔
      (app l r).contract? = some u ∨
      (app l r).contract? = none ∧
        ((∃ l', l.step? = some l' ∧ u = app l' r) ∨
          l.step? = none ∧ ∃ r', r.step? = some r' ∧ u = app l r') := by
  rw [step?]
  cases (app l r).contract? <;> cases l.step? <;> cases r.step? <;> simp [eq_comm]

/-- There is no step iff there is no redex. -/
lemma step?_eq_none_iff {t : Term} : t.step? = none ↔ ∀ path, ¬ t.RedexAt path := by
  induction t with
  | leaf => exact ⟨fun _ path h => (by cases h.kind_eq), fun _ => rfl⟩
  | var x => exact ⟨fun _ path h => (by cases h.kind_eq), fun _ => rfl⟩
  | ref n => exact ⟨fun _ path h => (by cases h.kind_eq), fun _ => rfl⟩
  | app l r ihl ihr => rw [step?_app_eq_none, forall_not_redexAt_app, ihl, ihr]

/-- A term is not normal iff it can be contracted somewhere. -/
lemma isNormal_eq_false_iff {t : Term} : t.isNormal = false ↔ ∃ path u, t.ContractsAt path u := by
  rw [isNormal, Option.isNone_eq_false_iff, Option.isSome_iff_ne_none, Ne, step?_eq_none_iff]
  push Not
  constructor
  · rintro ⟨path, redex, result, hs, hc⟩
    obtain ⟨u, hu⟩ := exists_replace_of_subterm hs result
    exact ⟨path, u, redex, result, hs, hc, hu⟩
  · rintro ⟨path, u, hpath⟩
    exact ⟨path, hpath.redexAt⟩

/-- A step contracts a redex before which there is no other. -/
lemma exists_first_redex {t u : Term} (h : t.step? = some u) :
    ∃ path, t.ContractsAt path u ∧ ∀ q, t.RedexAt q → ¬ Path.Before q path := by
  induction t generalizing u with
  | leaf => cases h
  | var x => cases h
  | ref n => cases h
  | app l r ihl ihr =>
      rcases step?_app_eq_some.mp h with hroot | ⟨hroot, ⟨l', hl, rfl⟩ | ⟨hl, r', hr, rfl⟩⟩
      · exact ⟨[], contractsAt_nil.mpr hroot, fun q _ => Path.not_before_nil q⟩
      · obtain ⟨path, hpath, hfirst⟩ := ihl hl
        refine ⟨.left :: path, hpath.left r, fun q hq hbefore => ?_⟩
        rcases Path.before_left hbefore with rfl | ⟨q', rfl, hbehind⟩
        · exact redexAt_nil.mp hq hroot
        · exact hfirst q' (redexAt_left.mp hq) hbehind
      · obtain ⟨path, hpath, hfirst⟩ := ihr hr
        refine ⟨.right :: path, hpath.right l, fun q hq hbefore => ?_⟩
        rcases Path.before_right hbefore with rfl | ⟨q', rfl⟩ | ⟨q', rfl, hbehind⟩
        · exact redexAt_nil.mp hq hroot
        · exact step?_eq_none_iff.mp hl q' (redexAt_left.mp hq)
        · exact hfirst q' (redexAt_right.mp hq) hbehind

/-- **Reduction contracts the first redex**: there is no step iff there is no redex, and otherwise a
step is the contraction of the redex before which there is no other. -/
theorem step?_contracts_first_redex (t : Term) :
    (t.step? = none ↔ ∀ path, ¬ t.RedexAt path) ∧
      ∀ u, t.step? = some u ↔
        ∃ path, t.ContractsAt path u ∧ ∀ q, t.RedexAt q → ¬ Path.Before q path := by
  refine ⟨step?_eq_none_iff, fun u => ⟨exists_first_redex, ?_⟩⟩
  rintro ⟨path, hpath, hfirst⟩
  cases hstep : t.step? with
  | none => exact absurd hpath.redexAt (step?_eq_none_iff.mp hstep path)
  | some v =>
      obtain ⟨path', hpath', hfirst'⟩ := exists_first_redex hstep
      -- of two first redexes neither comes before the other
      obtain rfl : path = path' :=
        Path.eq_of_not_before (hfirst' path hpath.redexAt) (hfirst path' hpath'.redexAt)
      rw [hpath.unique hpath']

end Term

end TreeCalculus
