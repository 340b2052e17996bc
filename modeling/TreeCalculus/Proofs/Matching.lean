import TreeCalculus.Matching
import TreeCalculus.Proofs.Tables
import TreeCalculus.Proofs.Terms

/-!
Matching finds the least substitution.

Bindings made on the way are never changed, and every variable of a pattern that has been matched
is bound. So the bindings at the end turn each part of the pattern into the part of the target
that it was matched against. Conversely, if an assignment turns the pattern into the target and
agrees with the bindings at the beginning, then it agrees with every binding made on the way, and
no comparison fails.

* `Term.find?_of_matchAgainst`, `Term.bound_of_matchAgainst`, `Term.mem_names_of_matchAgainst`:
  bindings are kept, pattern variables become bound, and no others.
* `Term.subst_of_matchAgainst`, `Equation.subst_of_matchAgainst`: the pattern becomes the target.
* `Substitution.PartOf`, `Term.exists_matchAgainst`, `Equation.exists_matchAgainst`: matching
  succeeds if some assignment turns the pattern into the target.
* `Term.matching_finds_least_extension`: matching is sound, complete and minimal.
-/

namespace TreeCalculus

namespace Term

/-- A leaf matches a leaf only, and binds nothing. -/
lemma matchAgainst_leaf {t : Term} {b b' : Substitution} (h : leaf.matchAgainst t b = some b') :
    t = leaf ∧ b' = b := by
  cases t <;> cases h
  exact ⟨rfl, rfl⟩

/-- A reference matches itself only, and binds nothing. -/
lemma matchAgainst_ref {n : Text} {t : Term} {b b' : Substitution}
    (h : (ref n).matchAgainst t b = some b') : t = ref n ∧ b' = b := by
  cases t with
  | ref m =>
      rw [matchAgainst] at h
      split_ifs at h with hn
      cases h
      exact ⟨congrArg ref (eq_of_beq hn).symm, rfl⟩
  | leaf => cases h
  | var x => cases h
  | app l r => cases h

/-- A successful match of two applications is made of the matches of their parts. -/
lemma matchAgainst_app {l r t : Term} {b b' : Substitution}
    (h : (app l r).matchAgainst t b = some b') :
    ∃ l' r' mid, t = app l' r' ∧ l.matchAgainst l' b = some mid ∧
      r.matchAgainst r' mid = some b' := by
  cases t with
  | app l' r' =>
      rw [matchAgainst] at h
      obtain ⟨mid, hl, hr⟩ := Option.bind_eq_some_iff.mp h
      exact ⟨l', r', mid, rfl, hl, hr⟩
  | leaf => cases h
  | var x => cases h
  | ref n => cases h

/-- A variable is matched by the binding that it has, or else by a new one. -/
lemma matchAgainst_var {x : Text} {t : Term} {b b' : Substitution}
    (h : (var x).matchAgainst t b = some b') :
    (b.find? x = some t ∧ b' = b) ∨ (b.find? x = none ∧ b' = b.insert x t) := by
  rw [matchAgainst] at h
  cases hx : b.find? x with
  | none =>
      simp only [hx, Option.some.injEq] at h
      exact .inr ⟨rfl, h.symm⟩
  | some v =>
      simp only [hx] at h
      split_ifs at h with hv
      cases h
      exact .inl ⟨congrArg some (Term.equals_eq_true.mp hv), rfl⟩

/-- Bindings are kept. -/
lemma find?_of_matchAgainst {p t : Term} {b b' : Substitution} (h : p.matchAgainst t b = some b')
    {x : Text} {v : Term} (hx : b.find? x = some v) : b'.find? x = some v := by
  induction p generalizing t b b' with
  | leaf =>
      obtain ⟨-, rfl⟩ := matchAgainst_leaf h
      exact hx
  | var y =>
      obtain ⟨-, rfl⟩ | ⟨hy, rfl⟩ := matchAgainst_var h
      · exact hx
      · rw [Table.find?_insert, if_neg, hx]
        rintro rfl
        rw [hx] at hy
        cases hy
  | ref n =>
      obtain ⟨-, rfl⟩ := matchAgainst_ref h
      exact hx
  | app l r ihl ihr =>
      obtain ⟨l', r', mid, -, hl, hr⟩ := matchAgainst_app h
      exact ihr hr (ihl hl hx)

/-- The variables of the pattern become bound. -/
lemma bound_of_matchAgainst {p t : Term} {b b' : Substitution} (h : p.matchAgainst t b = some b')
    {x : Text} (hx : x ∈ p.vars) : ∃ v, b'.find? x = some v := by
  induction p generalizing t b b' with
  | leaf => exact absurd hx (by simp)
  | var y =>
      rw [vars_var, List.mem_singleton] at hx
      subst hx
      obtain ⟨hy, rfl⟩ | ⟨-, rfl⟩ := matchAgainst_var h
      · exact ⟨t, hy⟩
      · exact ⟨t, by rw [Table.find?_insert, if_pos rfl]⟩
  | ref n => exact absurd hx (by simp)
  | app l r ihl ihr =>
      obtain ⟨l', r', mid, -, hl, hr⟩ := matchAgainst_app h
      obtain hxl | hxr := mem_vars_app.mp hx
      · obtain ⟨v, hv⟩ := ihl hl hxl
        exact ⟨v, find?_of_matchAgainst hr hv⟩
      · exact ihr hr hxr

/-- The names bound in the end are those bound before and the variables of the pattern. -/
lemma mem_names_of_matchAgainst {p t : Term} {b b' : Substitution}
    (h : p.matchAgainst t b = some b') {x : Text} :
    x ∈ b'.names ↔ x ∈ b.names ∨ x ∈ p.vars := by
  refine ⟨fun hx => ?_, ?_⟩
  · induction p generalizing t b b' with
    | leaf =>
        obtain ⟨-, rfl⟩ := matchAgainst_leaf h
        exact .inl hx
    | var y =>
        obtain ⟨-, rfl⟩ | ⟨-, rfl⟩ := matchAgainst_var h
        · exact .inl hx
        · rcases Table.mem_names_insert.mp hx with rfl | hx
          · exact .inr (by simp)
          · exact .inl hx
    | ref n =>
        obtain ⟨-, rfl⟩ := matchAgainst_ref h
        exact .inl hx
    | app l r ihl ihr =>
        obtain ⟨l', r', mid, -, hl, hr⟩ := matchAgainst_app h
        rw [mem_vars_app]
        rcases ihr hr hx with hx | hx
        · exact (ihl hl hx).imp_right .inl
        · exact .inr (.inr hx)
  · rintro (hx | hx)
    · obtain ⟨v, hv⟩ := Table.mem_names.mp hx
      exact Table.mem_names.mpr ⟨v, find?_of_matchAgainst h hv⟩
    · exact Table.mem_names.mpr (bound_of_matchAgainst h hx)

/-- What one match bound stays as it is in a later one. -/
lemma subst_eq_of_later_match {p t q u : Term} {b mid b' : Substitution}
    (hp : p.matchAgainst t b = some mid) (hq : q.matchAgainst u mid = some b') :
    p.subst b' = p.subst mid := by
  refine instantiate_congr fun x hx => ?_
  obtain ⟨v, hv⟩ := bound_of_matchAgainst hp hx
  rw [Substitution.value_of_find? hv, Substitution.value_of_find? (find?_of_matchAgainst hq hv)]

/-- **Soundness of matching**: the bindings turn the pattern into the target. -/
theorem subst_of_matchAgainst {p t : Term} {b b' : Substitution}
    (h : p.matchAgainst t b = some b') : p.subst b' = t := by
  induction p generalizing t b b' with
  | leaf =>
      obtain ⟨rfl, -⟩ := matchAgainst_leaf h
      rfl
  | var y =>
      have hy : b'.find? y = some t := by
        obtain ⟨hy, rfl⟩ | ⟨-, rfl⟩ := matchAgainst_var h
        · exact hy
        · rw [Table.find?_insert, if_pos rfl]
      exact Substitution.value_of_find? hy
  | ref n =>
      obtain ⟨rfl, -⟩ := matchAgainst_ref h
      rfl
  | app l r ihl ihr =>
      obtain ⟨l', r', mid, rfl, hl, hr⟩ := matchAgainst_app h
      have happ : (app l r).subst b' = app (l.subst b') (r.subst b') := rfl
      rw [happ, subst_eq_of_later_match hl hr, ihl hl, ihr hr]

end Term

/-! ### Completeness -/

/-- A substitution extends another one if it keeps its bindings. -/
def Substitution.Extends (s s₀ : Substitution) : Prop :=
  ∀ x v, s₀.find? x = some v → s.find? x = some v

/-- A substitution is part of an assignment if it binds names to what the assignment gives them. -/
def Substitution.PartOf (s : Substitution) (σ : Text → Term) : Prop :=
  ∀ x v, s.find? x = some v → σ x = v

lemma Substitution.partOf_empty (σ : Text → Term) : Substitution.PartOf .empty σ := nofun

lemma Substitution.Extends.partOf {s s₀ : Substitution} (h : s.Extends s₀) : s₀.PartOf s.value :=
  fun x v hx => Substitution.value_of_find? (h x v hx)

namespace Term

/-- **Completeness of matching**: if an assignment agrees with the bindings, then the pattern
matches what the assignment makes of it, and the assignment agrees with the new bindings too. -/
theorem exists_matchAgainst {σ : Text → Term} {p : Term} {b : Substitution} (hb : b.PartOf σ) :
    ∃ b', p.matchAgainst (p.instantiate σ) b = some b' ∧ b'.PartOf σ := by
  induction p generalizing b with
  | leaf => exact ⟨b, rfl, hb⟩
  | var y =>
      cases hy : b.find? y with
      | some v =>
          refine ⟨b, ?_, hb⟩
          simp only [matchAgainst, hy, instantiate, hb y v hy, Term.equals_eq_true, if_true]
      | none =>
          refine ⟨b.insert y (σ y), ?_, fun x v hx => ?_⟩
          · simp only [matchAgainst, hy, instantiate]
          · rw [Table.find?_insert] at hx
            split_ifs at hx with hxy
            · cases hx
              rw [hxy]
            · exact hb x v hx
  | ref n => exact ⟨b, by simp [matchAgainst, instantiate], hb⟩
  | app l r ihl ihr =>
      obtain ⟨mid, hl, hmid⟩ := ihl hb
      obtain ⟨b', hr, hb'⟩ := ihr hmid
      refine ⟨b', ?_, hb'⟩
      rw [instantiate, matchAgainst, hl, Option.bind_some, hr]

/-- **Matching is sound, complete and minimal**: it succeeds exactly if some extension of the given
substitution turns the pattern into the target. The result is such an extension; it binds no names
but those bound before and the variables of the pattern, and every extension that turns the pattern
into the target and binds all its variables binds them to the same terms. -/
theorem matching_finds_least_extension (p t : Term) (s₀ : Substitution) :
    ((∃ r, p.matchAgainst t s₀ = some r) ↔
      ∃ s : Substitution, s.Extends s₀ ∧ p.subst s = t) ∧
    ∀ r, p.matchAgainst t s₀ = some r →
      r.Extends s₀ ∧ (∀ x, x ∈ r.names ↔ x ∈ s₀.names ∨ x ∈ p.vars) ∧ p.subst r = t ∧
      ∀ s : Substitution, s.Extends s₀ → (∀ x ∈ p.vars, x ∈ s.names) → p.subst s = t →
        ∀ x ∈ p.vars, r.find? x = s.find? x := by
  refine ⟨⟨?_, ?_⟩, fun r h => ⟨fun x v hx => find?_of_matchAgainst h hx,
    fun x => mem_names_of_matchAgainst h, subst_of_matchAgainst h, fun s _ hbound hs x hx => ?_⟩⟩
  · rintro ⟨r, h⟩
    exact ⟨r, fun x v hx => find?_of_matchAgainst h hx, subst_of_matchAgainst h⟩
  · rintro ⟨s, hextends, rfl⟩
    obtain ⟨r, h, -⟩ := exists_matchAgainst (p := p) hextends.partOf
    exact ⟨r, h⟩
  · obtain ⟨u, hu⟩ := bound_of_matchAgainst h hx
    obtain ⟨v, hv⟩ := Table.mem_names.mp (hbound x hx)
    -- both turn the pattern into the target, so they agree on its variables
    have hvalue : r.value x = s.value x :=
      instantiate_inj ((subst_of_matchAgainst h).trans hs.symm) x hx
    rw [Substitution.value_of_find? hu, Substitution.value_of_find? hv] at hvalue
    rw [hu, hv, hvalue]

/-- A pattern with a repeated variable that shares its names with the target: matching exchanges the
two names, and the binding that was there stays. -/
theorem matching_finds_least_extension_exchange :
    let p : Term := .apply (.var "x") [.var "y", .var "x"]
    let t : Term := .apply (.var "y") [.var "x", .var "y"]
    let s₀ : Substitution := ⟨[("z", .leaf)]⟩
    ∃ r, p.matchAgainst t s₀ = some r ∧ r.find? "z" = some .leaf ∧
      (∀ x, x ∈ r.names ↔ x ∈ s₀.names ∨ x ∈ p.vars) ∧ p.subst r = t ∧
      r.find? "x" = some (.var "y") ∧ r.find? "y" = some (.var "x") := by
  intro p t s₀
  let s : Substitution := ⟨[("z", .leaf), ("x", .var "y"), ("y", .var "x")]⟩
  have hextends : s.Extends s₀ := by
    intro x v hx
    obtain ⟨rfl, rfl⟩ : x = "z" ∧ v = .leaf := by
      rw [Table.find?, Table.lookup_cons] at hx
      split_ifs at hx with hz
      · exact ⟨hz, (Option.some.inj hx).symm⟩
      · cases hx
    rfl
  obtain ⟨hmatch, hresult⟩ := matching_finds_least_extension p t s₀
  obtain ⟨r, hr⟩ := hmatch.mpr ⟨s, hextends, rfl⟩
  obtain ⟨hkept, hnames, hsubst, hleast⟩ := hresult r hr
  have hsame := hleast s hextends (by decide) rfl
  exact ⟨r, hr, hkept "z" .leaf rfl, hnames, hsubst, hsame "x" (by decide), hsame "y" (by decide)⟩

end Term

/-! ### Equations -/

/-- A theorem's goal that matches a goal becomes that goal under the bindings. -/
lemma Equation.subst_of_matchAgainst {p e : Equation} {b : Substitution}
    (h : p.matchAgainst e = some b) : p.subst b = e := by
  obtain ⟨mid, hl, hr⟩ := Option.bind_eq_some_iff.mp h
  rw [Equation.subst, Term.subst_eq_of_later_match hl hr, Term.subst_of_matchAgainst hl,
    Term.subst_of_matchAgainst hr]

/-- The variables of both sides are bound, and no others. -/
lemma Equation.mem_names_of_matchAgainst {p e : Equation} {b : Substitution}
    (h : p.matchAgainst e = some b) {x : Text} :
    x ∈ b.names ↔ x ∈ p.lhs.vars ∨ x ∈ p.rhs.vars := by
  obtain ⟨mid, hl, hr⟩ := Option.bind_eq_some_iff.mp h
  have hempty : x ∉ Table.names (.empty : Substitution) := List.not_mem_nil
  rw [Term.mem_names_of_matchAgainst hr, Term.mem_names_of_matchAgainst hl, or_iff_right hempty]

/-- An equation matches what an assignment makes of it. -/
lemma Equation.exists_matchAgainst {p e : Equation} {σ : Text → Term}
    (hl : p.lhs.instantiate σ = e.lhs) (hr : p.rhs.instantiate σ = e.rhs) :
    ∃ b, p.matchAgainst e = some b := by
  obtain ⟨mid, hmatch, hmid⟩ := Term.exists_matchAgainst (p := p.lhs) (Substitution.partOf_empty σ)
  obtain ⟨b, hmatch', -⟩ := Term.exists_matchAgainst (p := p.rhs) hmid
  rw [hl] at hmatch
  rw [hr] at hmatch'
  exact ⟨b, Option.bind_eq_some_iff.mpr ⟨mid, hmatch, hmatch'⟩⟩

end TreeCalculus
