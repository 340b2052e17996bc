import TreeCalculus.Proofs.Tables
import TreeCalculus.Sequent

/-!
Variables, references and values.

What a replacement of variables does to a term depends only on the variables that occur in it, and
depends on all of them; two replacements in a row are one. A term without variables is left alone.

* `Term.mem_addVars`, `Judgment.mem_vars`: which names are collected.
* `Term.instantiate_congr`, `Term.instantiate_inj`, `Term.instantiate_eq_self`,
  `Term.instantiate_instantiate`: the laws of replacement.
* `Term.mem_vars_instantiate`, `Judgment.mem_vars_subst`: the variables after a replacement.
* `Judgment.subst_subst_eq_iff`: when two substitutions in a row do what a third one does.
* `Term.refs`: the names of the references of a term.
* `Term.IsValue`: the canonical values, built from leaves, stems and forks alone; they have no
  variables.
-/

namespace TreeCalculus

namespace Term

/-! ### Variables -/

/-- Collecting adds the variables of a term to the names collected before. -/
lemma mem_addVars {x : Text} {t : Term} {names : List Text} :
    x ∈ t.addVars names ↔ x ∈ t.vars ∨ x ∈ names := by
  induction t generalizing names with
  | leaf => simp [addVars, vars]
  | var y => simp [addVars, vars]
  | ref n => simp [addVars, vars]
  | app l r ihl ihr =>
      rw [vars, addVars, addVars, ihr, ihl, ihr, ihl]
      simp [or_assoc, or_comm]

@[simp] lemma vars_leaf : (leaf : Term).vars = [] := rfl

@[simp] lemma vars_var (x : Text) : (var x).vars = [x] := rfl

@[simp] lemma vars_ref (n : Text) : (ref n).vars = [] := rfl

lemma mem_vars_app {x : Text} {l r : Term} : x ∈ (app l r).vars ↔ x ∈ l.vars ∨ x ∈ r.vars := by
  rw [vars, addVars, mem_addVars, or_comm]
  rfl

/-- An application has no variables iff neither part has any. -/
@[simp] lemma vars_app_eq_nil {l r : Term} : (app l r).vars = [] ↔ l.vars = [] ∧ r.vars = [] := by
  simp only [List.eq_nil_iff_forall_not_mem, mem_vars_app, not_or, forall_and]

/-! ### Replacement -/

/-- A replacement is determined by what it does to the variables that occur. -/
lemma instantiate_congr {σ τ : Text → Term} {t : Term} (h : ∀ x ∈ t.vars, σ x = τ x) :
    t.instantiate σ = t.instantiate τ := by
  induction t with
  | leaf => rfl
  | var x => exact h x (by simp)
  | ref n => rfl
  | app l r ihl ihr =>
      rw [instantiate, instantiate, ihl fun x hx => h x (mem_vars_app.mpr (.inl hx)),
        ihr fun x hx => h x (mem_vars_app.mpr (.inr hx))]

/-- Replacements that give the same term agree on the variables that occur. -/
lemma instantiate_inj {σ τ : Text → Term} {t : Term} (h : t.instantiate σ = t.instantiate τ) :
    ∀ x ∈ t.vars, σ x = τ x := by
  induction t with
  | leaf => simp
  | var y =>
      intro x hx
      rw [List.mem_singleton.mp hx]
      exact h
  | ref n => simp
  | app l r ihl ihr =>
      obtain ⟨hl, hr⟩ := app.inj h
      intro x hx
      rcases mem_vars_app.mp hx with hx | hx
      · exact ihl hl x hx
      · exact ihr hr x hx

/-- Replacing every variable by itself changes nothing. -/
lemma instantiate_var (t : Term) : t.instantiate var = t := by
  induction t with
  | leaf => rfl
  | var x => rfl
  | ref n => rfl
  | app l r ihl ihr => rw [instantiate, ihl, ihr]

/-- A term without variables is left alone. -/
lemma instantiate_eq_self {t : Term} (h : t.vars = []) (σ : Text → Term) :
    t.instantiate σ = t := by
  have hσ : t.instantiate σ = t.instantiate var := instantiate_congr fun x hx => by
    rw [h] at hx
    exact absurd hx (by simp)
  rw [hσ, instantiate_var]

/-- Two replacements in a row are one. -/
lemma instantiate_instantiate (σ τ : Text → Term) (t : Term) :
    (t.instantiate σ).instantiate τ = t.instantiate fun x => (σ x).instantiate τ := by
  induction t with
  | leaf => rfl
  | var x => rfl
  | ref n => rfl
  | app l r ihl ihr => simp only [instantiate, ihl, ihr]

/-- The variables after a replacement are those of what the old ones are replaced by. -/
lemma mem_vars_instantiate {σ : Text → Term} {t : Term} {x : Text} :
    x ∈ (t.instantiate σ).vars ↔ ∃ y ∈ t.vars, x ∈ (σ y).vars := by
  induction t with
  | leaf => simp [instantiate]
  | var y => simp [instantiate]
  | ref n => simp [instantiate]
  | app l r ihl ihr =>
      rw [instantiate, mem_vars_app, ihl, ihr]
      simp only [mem_vars_app, or_and_right, exists_or]

/-- Replacing all variables by terms without variables leaves none. -/
lemma vars_instantiate_eq_nil {σ : Text → Term} (h : ∀ x, (σ x).vars = []) (t : Term) :
    (t.instantiate σ).vars = [] := by
  induction t with
  | leaf => rfl
  | var x => exact h x
  | ref n => rfl
  | app l r ihl ihr => exact vars_app_eq_nil.mpr ⟨ihl, ihr⟩

/-! ### References -/

/-- The names of the references of a term, from left to right. -/
def refs : Term → List Text
  | leaf => []
  | var _ => []
  | ref name => [name]
  | app left right => left.refs ++ right.refs

/-! ### Canonical values -/

/-- The canonical values: leaves, and stems and forks of canonical values. -/
inductive IsValue : Term → Prop where
  | leaf : IsValue leaf
  | stem {v : Term} : IsValue v → IsValue (stem v)
  | fork {v w : Term} : IsValue v → IsValue w → IsValue (fork v w)

/-- A canonical value has no variables. -/
lemma IsValue.vars_eq_nil {v : Term} (h : IsValue v) : v.vars = [] := by
  induction h with
  | leaf => rfl
  | stem _ ih => simp [Term.stem, ih]
  | fork _ _ ihv ihw => simp [Term.fork, ihv, ihw]

end Term

/-! ### The variables of judgments -/

lemma Equation.mem_addVars {x : Text} {e : Equation} {names : List Text} :
    x ∈ e.addVars names ↔ (x ∈ e.lhs.vars ∨ x ∈ e.rhs.vars) ∨ x ∈ names := by
  rw [Equation.addVars, Term.mem_addVars, Term.mem_addVars]
  simp [or_assoc, or_comm]

/-- The names collected from several equations are those of their sides. -/
lemma Equation.mem_varsOf {x : Text} {es : List Equation} :
    x ∈ Equation.varsOf es ↔ ∃ e ∈ es, x ∈ e.lhs.vars ∨ x ∈ e.rhs.vars := by
  have key : ∀ names : List Text, x ∈ es.foldl (fun names e => e.addVars names) names ↔
      (∃ e ∈ es, x ∈ e.lhs.vars ∨ x ∈ e.rhs.vars) ∨ x ∈ names := by
    induction es with
    | nil => simp
    | cons e es ih =>
        intro names
        rw [List.foldl_cons, ih, Equation.mem_addVars]
        simp [or_assoc, or_comm]
  rw [Equation.varsOf, key]
  simp

/-- The variables of a judgment are those of its goal and of its hypotheses. -/
lemma Judgment.mem_vars {x : Text} {j : Judgment} :
    x ∈ j.vars ↔ ∃ e ∈ j.goal :: j.hypotheses, x ∈ e.lhs.vars ∨ x ∈ e.rhs.vars :=
  Equation.mem_varsOf

/-! ### Substitution in judgments -/

/-- A substitution with one binding puts its term in the place of one variable. -/
lemma Substitution.value_single (x z : Text) (t : Term) :
    Substitution.value ⟨[(x, t)]⟩ z = if z = x then t else .var z := by
  rw [Substitution.value, Table.find?, Table.lookup_cons]
  split_ifs <;> rfl

/-- What a bound name stands for. -/
lemma Substitution.value_of_find? {s : Substitution} {x : Text} {t : Term}
    (h : s.find? x = some t) : s.value x = t := by
  rw [Substitution.value, h, Option.getD_some]

/-- The variables after a substitution are those of what it puts in the place of the old ones. -/
lemma Judgment.mem_vars_subst {x : Text} {j : Judgment} {s : Substitution} :
    x ∈ (j.subst s).vars ↔ ∃ y ∈ j.vars, x ∈ (s.value y).vars := by
  have hequations : (j.subst s).goal :: (j.subst s).hypotheses =
      (j.goal :: j.hypotheses).map (·.subst s) := rfl
  simp only [mem_vars, hequations, List.mem_map, exists_exists_and_eq_and, Equation.subst,
    Term.subst, Term.mem_vars_instantiate]
  constructor
  · rintro ⟨e, he, ⟨y, hy, hx⟩ | ⟨y, hy, hx⟩⟩
    · exact ⟨y, ⟨e, he, .inl hy⟩, hx⟩
    · exact ⟨y, ⟨e, he, .inr hy⟩, hx⟩
  · rintro ⟨y, ⟨e, he, hy | hy⟩, hx⟩
    · exact ⟨e, he, .inl ⟨y, hy, hx⟩⟩
    · exact ⟨e, he, .inr ⟨y, hy, hx⟩⟩

/-- Two substitutions in a row do to an equation what a third one does iff they do so to each of its
variables. -/
lemma Equation.subst_subst_eq_iff {e : Equation} {s s' s'' : Substitution} :
    (e.subst s).subst s' = e.subst s'' ↔
      ∀ x, x ∈ e.lhs.vars ∨ x ∈ e.rhs.vars → (s.value x).subst s' = s''.value x := by
  have hside (t : Term) : (t.subst s).subst s' = t.subst s'' ↔
      ∀ x ∈ t.vars, (s.value x).subst s' = s''.value x := by
    rw [Term.subst, Term.subst, Term.instantiate_instantiate]
    exact ⟨Term.instantiate_inj, Term.instantiate_congr⟩
  simp only [Equation.subst, Equation.mk.injEq, hside, or_imp, forall_and]

/-- Two substitutions in a row do to a judgment what a third one does iff they do so to each of its
variables. -/
lemma Judgment.subst_subst_eq_iff {j : Judgment} {s s' s'' : Substitution} :
    (j.subst s).subst s' = j.subst s'' ↔
      ∀ x ∈ j.vars, (s.value x).subst s' = s''.value x := by
  have hequations : (j.subst s).subst s' = j.subst s'' ↔
      ∀ e ∈ j.goal :: j.hypotheses, (e.subst s).subst s' = e.subst s'' := by
    simp only [Judgment.subst, Judgment.mk.injEq, List.map_map, List.map_inj_left,
      Function.comp_apply, List.forall_mem_cons, and_comm]
  simp only [hequations, Equation.subst_subst_eq_iff, mem_vars]
  constructor
  · rintro h x ⟨e, he, hx⟩
    exact h e he x hx
  · exact fun h e he x hx => h x ⟨e, he, hx⟩

end TreeCalculus
