import Mathlib.Tactic.ByContra
import TreeCalculus.Proofs.Paths

/-!
The laws of replacement.

Looking up a subterm is a walk down from the root, which keeps the turns that lie behind;
replacing it is a recursion, which builds the term anew on the way back. What both have in common
is a context: a path that fits a term cuts it into what stands around the subterm and the subterm
itself. Along the path of a context, a walk arrives at whatever fills the hole, and a replacement
is made in there. Two paths that part at some application cut a term into a context with two
holes, each of which can be filled without regard to the other. The laws are read off from the
contexts.

* `Term.ContextAt`: contexts, by what a lookup and a replacement do to them.
* `Term.exists_contextAt`: a path that fits a term cuts it.
* `Term.subterm_replace_mismatch`: a lookup and a replacement fail at the same place.
* `Term.exists_two_contexts`: two paths that part cut a term twice.
* `Term.replacement_laws`: the laws.
-/

namespace TreeCalculus.Term

/-! ### Contexts -/

/-- A context whose hole is at a path, as the function that fills it. Whatever fills the hole, a
longer path is followed from there, and a replacement behind the path is a replacement in the
hole. -/
structure ContextAt (path : Path) (c : Term → Term) : Prop where
  subtermFrom_append : ∀ (s : Term) (walked rest : Path),
    (c s).subtermFrom walked (path ++ rest) = s.subtermFrom (walked ++ path) rest
  replace_append : ∀ (s : Term) (rest : Path) (new : Term),
    (c s).replace (path ++ rest) new = (s.replace rest new).map c

/-- The empty context. -/
lemma contextAt_nil : ContextAt [] id := by
  refine ⟨fun s walked rest => ?_, fun s rest new => ?_⟩
  · rw [List.append_nil]
    rfl
  · cases h : s.replace rest new <;> exact h

namespace ContextAt

variable {path : Path} {c : Term → Term}

lemma left (h : ContextAt path c) (r : Term) :
    ContextAt (.left :: path) fun s => app (c s) r := by
  refine ⟨fun s walked rest => ?_, fun s rest new => ?_⟩
  · rw [List.cons_append, subtermFrom, h.subtermFrom_append, List.append_assoc]
    rfl
  · rw [List.cons_append, replace, h.replace_append]
    cases s.replace rest new <;> rfl

lemma right (h : ContextAt path c) (l : Term) :
    ContextAt (.right :: path) fun s => app l (c s) := by
  refine ⟨fun s walked rest => ?_, fun s rest new => ?_⟩
  · rw [List.cons_append, subtermFrom, h.subtermFrom_append, List.append_assoc]
    rfl
  · rw [List.cons_append, replace, h.replace_append]
    cases s.replace rest new <;> rfl

/-- The hole of a context is where its path leads. -/
lemma subterm_eq (h : ContextAt path c) (s : Term) : (c s).subterm path = .ok s := by
  rw [subterm, ← List.append_nil path, h.subtermFrom_append, subtermFrom]

/-- Replacing at the path of a context fills the hole anew. -/
lemma replace_eq (h : ContextAt path c) (s new : Term) : (c s).replace path new = .ok (c new) := by
  rw [← List.append_nil path, h.replace_append, replace_nil]
  rfl

end ContextAt

/-- A path that leads to a subterm cuts the term into a context and this subterm. -/
lemma exists_contextAt {t s : Term} {path : Path} (h : t.subterm path = .ok s) :
    ∃ c, ContextAt path c ∧ t = c s := by
  induction path generalizing t with
  | nil =>
      rw [subterm_nil] at h
      exact ⟨id, contextAt_nil, Except.ok.inj h⟩
  | cons turn rest ih =>
      by_cases hkind : t.kind = .app
      · obtain ⟨l, r, rfl⟩ := exists_app_of_kind hkind
        cases turn with
        | left =>
            obtain ⟨c, hc, rfl⟩ := ih (subterm_left.mp h)
            exact ⟨_, hc.left r, rfl⟩
        | right =>
            obtain ⟨c, hc, rfl⟩ := ih (subterm_right.mp h)
            exact ⟨_, hc.right l, rfl⟩
      · rw [subterm, subtermFrom_cons_of_kind_ne hkind] at h
        cases h

/-! ### Mismatches -/

lemma replace_cons_of_kind_ne {t : Term} (h : t.kind ≠ .app) (turn : Turn) (rest : Path)
    (new : Term) :
    t.replace (turn :: rest) new = .error (.stuckBefore (turn :: rest) t.kind) := by
  cases t with
  | app l r => exact absurd rfl h
  | leaf => cases turn <;> rfl
  | var x => cases turn <;> rfl
  | ref n => cases turn <;> rfl

/-- Where a path leads to no subterm, it takes a turn at a part that is no application. Then a
lookup reports the turns up to this part, and a replacement those that were left. -/
lemma subterm_replace_mismatch {t : Term} {path : Path} (h : ¬ ∃ s, t.subterm path = .ok s)
    (new : Term) :
    ∃ walked turn rest found, path = walked ++ turn :: rest ∧ t.subterm walked = .ok found ∧
      found.kind ≠ .app ∧ t.subterm path = .error (.stuckAt walked found.kind) ∧
      t.replace path new = .error (.stuckBefore (turn :: rest) found.kind) := by
  cases hsub : t.subterm path with
  | ok s => exact absurd ⟨s, hsub⟩ h
  | error reason =>
      obtain ⟨walked, turn, rest, found, rfl, hfound, hkind, rfl⟩ := subtermFrom_eq_error.mp hsub
      obtain ⟨c, hc, rfl⟩ := exists_contextAt hfound
      refine ⟨walked, turn, rest, found, rfl, hfound, hkind, rfl, ?_⟩
      rw [hc.replace_append, replace_cons_of_kind_ne hkind]
      rfl

/-! ### Two holes -/

/-- Two paths that part at some application cut a term into a context with two holes. -/
lemma exists_two_contexts {t s s' : Term} {p q : Path} (hp : t.subterm p = .ok s)
    (hq : t.subterm q = .ok s') (hpq : ¬ p <+: q) (hqp : ¬ q <+: p) :
    ∃ c : Term → Term → Term, (∀ b, ContextAt p fun a => c a b) ∧ (∀ a, ContextAt q (c a)) ∧
      t = c s s' := by
  induction p generalizing t q with
  | nil => exact absurd List.nil_prefix hpq
  | cons turn p ih =>
      cases q with
      | nil => exact absurd List.nil_prefix hqp
      | cons turn' q =>
          obtain ⟨u, hu⟩ := exists_replace_of_subterm hp s
          obtain ⟨l, r, rfl, -⟩ := replace_cons_eq_ok hu
          rw [List.cons_prefix_cons, not_and] at hpq hqp
          cases turn <;> cases turn'
          case left.left =>
            obtain ⟨c, hleft, hright, rfl⟩ :=
              ih (subterm_left.mp hp) (subterm_left.mp hq) (hpq rfl) (hqp rfl)
            exact ⟨fun a b => app (c a b) r, fun b => (hleft b).left r, fun a => (hright a).left r,
              rfl⟩
          case right.right =>
            obtain ⟨c, hleft, hright, rfl⟩ :=
              ih (subterm_right.mp hp) (subterm_right.mp hq) (hpq rfl) (hqp rfl)
            exact ⟨fun a b => app l (c a b), fun b => (hleft b).right l,
              fun a => (hright a).right l, rfl⟩
          -- the paths part here, one hole in the operator and one in the argument
          case left.right =>
            obtain ⟨c, hc, rfl⟩ := exists_contextAt (subterm_left.mp hp)
            obtain ⟨d, hd, rfl⟩ := exists_contextAt (subterm_right.mp hq)
            exact ⟨fun a b => app (c a) (d b), fun b => hc.left (d b), fun a => hd.right (c a), rfl⟩
          case right.left =>
            obtain ⟨c, hc, rfl⟩ := exists_contextAt (subterm_right.mp hp)
            obtain ⟨d, hd, rfl⟩ := exists_contextAt (subterm_left.mp hq)
            exact ⟨fun a b => app (d b) (c a), fun b => hc.right (d b), fun a => hd.left (c a), rfl⟩

/-! ### The laws -/

/-- **The laws of replacement**: a replacement at a path succeeds exactly if the path leads to a
subterm; if it does not, a lookup and a replacement both fail, at the same part. If it does, what
was put at the path is found there, putting back what was there changes nothing, and only the last
replacement counts. At two paths of which neither begins with the other, a replacement at the one
does not change what is found at the other, and replacements at both can be made in either
order. -/
theorem replacement_laws (t : Term) (p q : Path) (a b : Term) :
    ((∃ u, t.replace p a = .ok u) ↔ ∃ s, t.subterm p = .ok s) ∧
      ((¬ ∃ s, t.subterm p = .ok s) →
        ∃ walked turn rest found, p = walked ++ turn :: rest ∧ t.subterm walked = .ok found ∧
          found.kind ≠ .app ∧ t.subterm p = .error (.stuckAt walked found.kind) ∧
          t.replace p a = .error (.stuckBefore (turn :: rest) found.kind)) ∧
      (∀ s u, t.subterm p = .ok s → t.replace p a = .ok u →
        u.subterm p = .ok a ∧ t.replace p s = .ok t ∧ u.replace p b = t.replace p b) ∧
      (¬ p <+: q → ¬ q <+: p → ∀ s s', t.subterm p = .ok s → t.subterm q = .ok s' →
        ∃ u v w, t.replace p a = .ok u ∧ t.replace q b = .ok v ∧
          u.subterm q = .ok s' ∧ u.replace q b = .ok w ∧ v.replace p a = .ok w) := by
  refine ⟨⟨?_, ?_⟩, fun h => subterm_replace_mismatch h a, ?_, ?_⟩
  · rintro ⟨u, hu⟩
    by_contra hfail
    obtain ⟨walked, turn, rest, found, -, -, -, -, herror⟩ := subterm_replace_mismatch hfail a
    rw [hu] at herror
    cases herror
  · rintro ⟨s, hs⟩
    exact exists_replace_of_subterm hs a
  · intro s u hs hu
    obtain ⟨c, hc, rfl⟩ := exists_contextAt hs
    rw [hc.replace_eq] at hu
    cases hu
    exact ⟨hc.subterm_eq a, hc.replace_eq s s, by rw [hc.replace_eq, hc.replace_eq]⟩
  · intro hpq hqp s s' hp hq
    obtain ⟨c, hleft, hright, rfl⟩ := exists_two_contexts hp hq hpq hqp
    exact ⟨c a s', c s b, c a b, (hleft s').replace_eq s a, (hright s).replace_eq s' b,
      (hright a).subterm_eq s', (hright a).replace_eq s' b, (hleft b).replace_eq s a⟩

/-- In `△ x (y K)`, the operator of the argument and the argument of the operator are exchanged in
either order. No turn can be taken at the sign `△` itself, where two turns lie behind and one is
left. -/
theorem replacement_laws_exchange :
    let t : Term := app (app leaf (.var "x")) (app (.var "y") (.ref "K"))
    let p : Path := [.left, .right]
    let q : Path := [.right, .left]
    let beyond : Path := [.left, .left, .right]
    (¬ p <+: q ∧ ¬ q <+: p) ∧ (t.subterm p = .ok (.var "x") ∧ t.subterm q = .ok (.var "y")) ∧
      (∃ u v w, t.replace p (.var "y") = .ok u ∧ t.replace q (.var "x") = .ok v ∧
        u.subterm q = .ok (.var "y") ∧ u.replace q (.var "x") = .ok w ∧
        v.replace p (.var "y") = .ok w) ∧
      (¬ ∃ s, t.subterm beyond = .ok s) ∧
      t.subterm beyond = .error (.stuckAt [.left, .left] .leaf) ∧
      ¬ ∃ u, t.replace beyond leaf = .ok u := by
  intro t p q beyond
  have hpq : ¬ p <+: q := by decide
  have hqp : ¬ q <+: p := by decide
  have hbeyond : t.subterm beyond = .error (.stuckAt [.left, .left] .leaf) := rfl
  have hnone : ¬ ∃ s, t.subterm beyond = .ok s := by
    rintro ⟨s, hs⟩
    cases hbeyond.symm.trans hs
  refine ⟨⟨hpq, hqp⟩, ⟨rfl, rfl⟩, ?_, hnone, hbeyond, ?_⟩
  · exact (replacement_laws t p q (.var "y") (.var "x")).2.2.2 hpq hqp _ _ rfl rfl
  · exact fun hu => hnone ((replacement_laws t beyond q leaf leaf).1.mp hu)

end TreeCalculus.Term
