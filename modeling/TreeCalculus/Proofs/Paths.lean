import Mathlib.Tactic.Lemma
import TreeCalculus.Tactic.Basic

/-!
Subterms and replacement as contexts.

A path that fits a term cuts it into a context and the subterm in its hole; replacing at the path
fills the hole anew. So whatever relation is kept by application passes from the subterm and its
replacement to the whole terms.

* `Term.subterm_left`, `Term.subterm_right`, `Term.replace_left`, `Term.replace_right`: the first
  turn of a path.
* `Term.subtermFrom_eq_error`, `Equation.select_eq_error`: where a walk along a path fails.
* `Term.exists_replace_of_subterm`, `Equation.exists_replace_of_select`: what can be selected can
  be replaced.
* `Equation.replace_eq_ok`: replacing in an equation replaces in one side.
* `Term.rel_replace`, `Equation.rel_replace`: relations that are kept by application pass through
  contexts.
-/

namespace TreeCalculus

namespace Term

/-- Where the walk began matters for the report of a failure only. -/
lemma subtermFrom_eq_ok {walked walked' : Path} {t s : Term} {path : Path}
    (h : t.subtermFrom walked path = .ok s) : t.subtermFrom walked' path = .ok s := by
  induction path generalizing t walked walked' with
  | nil =>
      rw [subtermFrom] at h ⊢
      exact h
  | cons turn rest ih =>
      cases t with
      | app l r =>
          cases turn with
          | left => exact ih h
          | right => exact ih h
      | leaf => cases turn <;> cases h
      | var x => cases turn <;> cases h
      | ref n => cases turn <;> cases h

@[simp] lemma subterm_nil (t : Term) : t.subterm [] = .ok t := by
  rw [subterm, subtermFrom]

@[simp] lemma replace_nil (t new : Term) : t.replace [] new = .ok new := by
  rw [replace]

lemma subterm_left {l r s : Term} {path : Path} :
    (app l r).subterm (.left :: path) = .ok s ↔ l.subterm path = .ok s := by
  rw [subterm, subterm, subtermFrom]
  exact ⟨subtermFrom_eq_ok, subtermFrom_eq_ok⟩

lemma subterm_right {l r s : Term} {path : Path} :
    (app l r).subterm (.right :: path) = .ok s ↔ r.subterm path = .ok s := by
  rw [subterm, subterm, subtermFrom]
  exact ⟨subtermFrom_eq_ok, subtermFrom_eq_ok⟩

lemma replace_left {l l' new : Term} {path : Path} (h : l.replace path new = .ok l') (r : Term) :
    (app l r).replace (.left :: path) new = .ok (app l' r) := by
  rw [replace, h]
  rfl

lemma replace_right {r r' new : Term} {path : Path} (l : Term) (h : r.replace path new = .ok r') :
    (app l r).replace (.right :: path) new = .ok (app l r') := by
  rw [replace, h]
  rfl

/-- Replacing behind a first turn replaces in that part of an application. -/
lemma replace_cons_eq_ok {t new u : Term} {turn : Turn} {path : Path}
    (h : t.replace (turn :: path) new = .ok u) :
    ∃ l r, t = app l r ∧
      ((turn = .left ∧ ∃ l', l.replace path new = .ok l' ∧ u = app l' r) ∨
        (turn = .right ∧ ∃ r', r.replace path new = .ok r' ∧ u = app l r')) := by
  cases t with
  | leaf => cases turn <;> cases h
  | var x => cases turn <;> cases h
  | ref n => cases turn <;> cases h
  | app l r =>
      refine ⟨l, r, rfl, ?_⟩
      cases turn with
      | left =>
          rw [replace] at h
          cases hl : l.replace path new with
          | error e => rw [hl] at h; cases h
          | ok l' => rw [hl] at h; cases h; exact .inl ⟨rfl, l', rfl, rfl⟩
      | right =>
          rw [replace] at h
          cases hr : r.replace path new with
          | error e => rw [hr] at h; cases h
          | ok r' => rw [hr] at h; cases h; exact .inr ⟨rfl, r', rfl, rfl⟩

lemma exists_app_of_kind {t : Term} (h : t.kind = .app) : ∃ l r, t = app l r := by
  cases t <;> simp [kind] at h ⊢

/-- No turn can be taken at a term that is no application. -/
lemma subtermFrom_cons_of_kind_ne {t : Term} (h : t.kind ≠ .app) (walked : Path) (turn : Turn)
    (rest : Path) : t.subtermFrom walked (turn :: rest) = .error (.stuckAt walked t.kind) := by
  cases t with
  | app l r => exact absurd rfl h
  | leaf => cases turn <;> rfl
  | var x => cases turn <;> rfl
  | ref n => cases turn <;> rfl

/-- A walk fails exactly where it has to take a turn at a term that is no application, and reports
how far it came. -/
lemma subtermFrom_eq_error {walked path : Path} {t : Term} {reason : PathMismatch} :
    t.subtermFrom walked path = .error reason ↔
      ∃ before turn rest s, path = before ++ turn :: rest ∧ t.subterm before = .ok s ∧
        s.kind ≠ .app ∧ reason = .stuckAt (walked ++ before) s.kind := by
  induction path generalizing t walked with
  | nil =>
      rw [subtermFrom]
      constructor
      · intro h
        cases h
      · rintro ⟨before, turn, rest, s, hpath, -⟩
        cases before <;> cases hpath
  | cons turn rest ih =>
      by_cases hkind : t.kind = .app
      · -- the first turn is taken, so it stands before the place of failure
        obtain ⟨l, r, rfl⟩ := exists_app_of_kind hkind
        constructor
        · intro h
          cases turn with
          | left =>
              obtain ⟨before, turn, rest, s, rfl, hs, hne, rfl⟩ := ih.mp h
              exact ⟨.left :: before, turn, rest, s, rfl, subterm_left.mpr hs, hne, by simp⟩
          | right =>
              obtain ⟨before, turn, rest, s, rfl, hs, hne, rfl⟩ := ih.mp h
              exact ⟨.right :: before, turn, rest, s, rfl, subterm_right.mpr hs, hne, by simp⟩
        · rintro ⟨before, turn', rest', s, hpath, hs, hne, rfl⟩
          cases before with
          | nil =>
              rw [subterm_nil] at hs
              cases hs
              exact absurd rfl hne
          | cons first before =>
              obtain ⟨rfl, rfl⟩ := List.cons.inj hpath
              cases turn with
              | left =>
                  exact ih.mpr ⟨before, turn', rest', s, rfl, subterm_left.mp hs, hne, by simp⟩
              | right =>
                  exact ih.mpr ⟨before, turn', rest', s, rfl, subterm_right.mp hs, hne, by simp⟩
      · rw [subtermFrom_cons_of_kind_ne hkind]
        constructor
        · intro h
          exact ⟨[], turn, rest, t, rfl, subterm_nil t, hkind, by
            rw [List.append_nil]; exact (Except.error.inj h).symm⟩
        · rintro ⟨before, turn', rest', s, hpath, hs, -, rfl⟩
          cases before with
          | nil =>
              rw [subterm_nil] at hs
              cases hs
              rw [List.append_nil]
          | cons first before =>
              rw [subterm, subtermFrom_cons_of_kind_ne hkind] at hs
              cases hs

/-- What can be selected can be replaced. -/
lemma exists_replace_of_subterm {t s : Term} {path : Path} (h : t.subterm path = .ok s)
    (new : Term) : ∃ u, t.replace path new = .ok u := by
  induction path generalizing t with
  | nil => exact ⟨new, replace_nil t new⟩
  | cons turn rest ih =>
      by_cases hkind : t.kind = .app
      · obtain ⟨l, r, rfl⟩ := exists_app_of_kind hkind
        cases turn with
        | left =>
            obtain ⟨l', hl⟩ := ih (subterm_left.mp h)
            exact ⟨app l' r, replace_left hl r⟩
        | right =>
            obtain ⟨r', hr⟩ := ih (subterm_right.mp h)
            exact ⟨app l r', replace_right l hr⟩
      · rw [subterm, subtermFrom_cons_of_kind_ne hkind] at h
        cases h

/-- A reflexive relation that application keeps passes from a subterm and its replacement to the
whole terms. -/
lemma rel_replace {R : Term → Term → Prop} (hrefl : ∀ t, R t t)
    (happ : ∀ {l l' r r'}, R l l' → R r r' → R (app l r) (app l' r'))
    {t s new u : Term} {path : Path} (hs : t.subterm path = .ok s)
    (hu : t.replace path new = .ok u) (h : R s new) : R t u := by
  induction path generalizing t u with
  | nil =>
      rw [subterm_nil] at hs
      rw [replace_nil] at hu
      cases hs
      cases hu
      exact h
  | cons turn rest ih =>
      obtain ⟨l, r, rfl, ⟨rfl, l', hl, rfl⟩ | ⟨rfl, r', hr, rfl⟩⟩ := replace_cons_eq_ok hu
      · exact happ (ih (subterm_left.mp hs) hl) (hrefl r)
      · exact happ (hrefl l) (ih (subterm_right.mp hs) hr)

end Term

/-- Replacing in an equation replaces in the selected side. -/
lemma Equation.replace_eq_ok {e e' : Equation} {sel : Selection} {new : Term} :
    e.replace sel new = .ok e' ↔
      ∃ t, (e.side sel.side).replace sel.path new = .ok t ∧ e' = e.withSide sel.side t := by
  rw [Equation.replace]
  cases (e.side sel.side).replace sel.path new <;> simp [Except.map, eq_comm]

/-- The same for a selected subterm of an equation: both sides are related to what they become. -/
lemma Equation.rel_replace {R : Term → Term → Prop} (hrefl : ∀ t, R t t)
    (happ : ∀ {l l' r r'}, R l l' → R r r' → R (.app l r) (.app l' r'))
    {e e' : Equation} {sel : Selection} {s new : Term} (hs : e.select sel = .ok s)
    (he : e.replace sel new = .ok e') (h : R s new) : R e.lhs e'.lhs ∧ R e.rhs e'.rhs := by
  obtain ⟨u, hu, rfl⟩ := replace_eq_ok.mp he
  have hside : R (e.side sel.side) u := Term.rel_replace hrefl happ hs hu h
  cases hcase : sel.side with
  | lhs =>
      rw [hcase] at hside
      exact ⟨hside, hrefl _⟩
  | rhs =>
      rw [hcase] at hside
      exact ⟨hrefl _, hside⟩

/-- Nothing is selected exactly if the path takes a turn at a term that is no application. -/
lemma Equation.select_eq_error {e : Equation} {sel : Selection} {reason : PathMismatch} :
    e.select sel = .error reason ↔
      ∃ walked turn rest found, sel.path = walked ++ turn :: rest ∧
        (e.side sel.side).subterm walked = .ok found ∧ found.kind ≠ .app ∧
        reason = .stuckAt walked found.kind := by
  rw [Equation.select, Term.subterm, Term.subtermFrom_eq_error]
  simp only [List.nil_append]

/-- A selected subterm can be replaced. -/
lemma Equation.exists_replace_of_select {e : Equation} {sel : Selection} {selected : Term}
    (h : e.select sel = .ok selected) (new : Term) : ∃ e', e.replace sel new = .ok e' := by
  obtain ⟨u, hu⟩ := Term.exists_replace_of_subterm h new
  exact ⟨e.withSide sel.side u, replace_eq_ok.mpr ⟨u, hu, rfl⟩⟩

end TreeCalculus
