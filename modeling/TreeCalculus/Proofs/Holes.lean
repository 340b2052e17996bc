import TreeCalculus.Proofs.Strategy
import TreeCalculus.Template

/-!
Holes of templates.

Four functions walk down a template on their own: one fills the hole at a path, one looks for the
first hole, one turns a template without holes into a term, and one turns a term into a template.
They agree on where the holes are. A path leads to a hole iff something can be put there,
different holes can be filled in any order, and what has no hole is a term.

* `Template.holeCount`, `Template.HoleAt`: the number of holes, and the paths that lead to them.
* `Template.HoleAt.exists_fill`, `Template.holeAt_of_fill`: where holes can be filled, and how
  many are left.
* `Template.HoleAt.fill_comm`: holes at different paths are filled independently.
* `Template.firstHole?_app_eq_some`, `Template.firstHole?_eq_some`: the first hole is before all
  others.
* `Template.toTerm_eq_ok`, `Template.toTerm_eq_error`: templates of terms, and all other
  templates.
* `Template.filling_accounts_for_holes`: all of this together.
-/

namespace TreeCalculus.Template

variable {t u l r new : Template} {p q path : Path}

/-! ### The holes of a template -/

/-- The number of holes. -/
def holeCount : Template → Nat
  | hole => 1
  | leaf => 0
  | var _ => 0
  | ref _ => 0
  | app left right => left.holeCount + right.holeCount

/-- A path leads to a hole. -/
inductive HoleAt : Template → Path → Prop where
  | here : HoleAt hole []
  | left {l : Template} {path : Path} : HoleAt l path → ∀ r, HoleAt (app l r) (.left :: path)
  | right {r : Template} {path : Path} : ∀ l, HoleAt r path → HoleAt (app l r) (.right :: path)

lemma holeAt_left : HoleAt (app l r) (.left :: path) ↔ HoleAt l path :=
  ⟨fun h => by cases h with | left h => exact h, fun h => h.left r⟩

lemma holeAt_right : HoleAt (app l r) (.right :: path) ↔ HoleAt r path :=
  ⟨fun h => by cases h with | right _ h => exact h, fun h => h.right l⟩

lemma holeCount_eq_zero : t.holeCount = 0 ↔ ∀ path, ¬ HoleAt t path := by
  induction t with
  | hole => exact ⟨nofun, fun h => absurd HoleAt.here (h [])⟩
  | app l r ihl ihr =>
      rw [holeCount, Nat.add_eq_zero_iff, ihl, ihr]
      constructor
      · rintro ⟨hl, hr⟩ path h
        cases h with
        | left h => exact hl _ h
        | right _ h => exact hr _ h
      · exact fun h => ⟨fun path hl => h _ (hl.left r), fun path hr => h _ (hr.right l)⟩
  | leaf | var x | ref n => exact ⟨fun _ path h => (by cases h), fun _ => rfl⟩

/-! ### Filling -/

lemma fill_left {l' : Template} (h : l.fill path new = .ok l') (r : Template) :
    (app l r).fill (.left :: path) new = .ok (app l' r) := by
  rw [fill, h]
  rfl

lemma fill_right {r' : Template} (l : Template) (h : r.fill path new = .ok r') :
    (app l r).fill (.right :: path) new = .ok (app l r') := by
  rw [fill, h]
  rfl

/-- Every hole can be filled; then one hole is gone, and those of what was put there have come. -/
lemma HoleAt.exists_fill (h : HoleAt t path) (new : Template) :
    ∃ u, t.fill path new = .ok u ∧ u.holeCount + 1 = t.holeCount + new.holeCount := by
  induction h with
  | here => exact ⟨new, rfl, Nat.add_comm _ _⟩
  | left _ r ih =>
      obtain ⟨l', hl, hcount⟩ := ih
      refine ⟨app l' r, fill_left hl r, ?_⟩
      simp only [holeCount]
      omega
  | right l _ ih =>
      obtain ⟨r', hr, hcount⟩ := ih
      refine ⟨app l r', fill_right l hr, ?_⟩
      simp only [holeCount]
      omega

/-- Nothing but holes can be filled. -/
lemma holeAt_of_fill (h : t.fill path new = .ok u) : HoleAt t path := by
  induction t generalizing path u with
  | hole =>
      cases path with
      | nil => exact .here
      | cons turn rest => cases turn <;> cases h
  | app l r ihl ihr =>
      match path with
      | [] => cases h
      | .left :: rest =>
          rw [fill] at h
          cases hl : l.fill rest new with
          | error e => rw [hl] at h; cases h
          | ok l' => exact (ihl hl).left r
      | .right :: rest =>
          rw [fill] at h
          cases hr : r.fill rest new with
          | error e => rw [hr] at h; cases h
          | ok r' => exact (ihr hr).right l
  | leaf | var x | ref n =>
      cases path with
      | nil => cases h
      | cons turn rest => cases turn <;> cases h

lemma holeCount_fill (h : t.fill path new = .ok u) :
    u.holeCount + 1 = t.holeCount + new.holeCount := by
  obtain ⟨u', hu, hcount⟩ := (holeAt_of_fill h).exists_fill new
  obtain rfl := Except.ok.inj (hu.symm.trans h)
  exact hcount

lemma exists_fill_iff : (∃ u, t.fill path new = .ok u) ↔ HoleAt t path := by
  constructor
  · rintro ⟨u, hu⟩
    exact holeAt_of_fill hu
  · intro h
    obtain ⟨u, hu, -⟩ := h.exists_fill new
    exact ⟨u, hu⟩

/-- Holes at different paths are filled independently of each other. -/
lemma HoleAt.fill_comm (hp : HoleAt t p) (hq : HoleAt t q) (hne : p ≠ q) (a b : Template) :
    ∃ u v w, t.fill p a = .ok u ∧ u.fill q b = .ok w ∧ t.fill q b = .ok v ∧ v.fill p a = .ok w := by
  -- the paths take the same turns up to an application at which they part
  induction hp generalizing q with
  | here =>
      cases hq
      exact absurd rfl hne
  | @left l p hl r ih =>
      cases hq with
      | @left _ q hl' =>
          obtain ⟨u, v, w, hu, huw, hv, hvw⟩ := ih hl' fun h => hne (h ▸ rfl)
          exact ⟨app u r, app v r, app w r, fill_left hu r, fill_left huw r, fill_left hv r,
            fill_left hvw r⟩
      | right _ hr =>
          obtain ⟨l', hl', -⟩ := hl.exists_fill a
          obtain ⟨r', hr', -⟩ := hr.exists_fill b
          exact ⟨app l' r, app l r', app l' r', fill_left hl' r, fill_right l' hr',
            fill_right l hr', fill_left hl' r'⟩
  | @right r p l hr ih =>
      cases hq with
      | left hl _ =>
          obtain ⟨l', hl', -⟩ := hl.exists_fill b
          obtain ⟨r', hr', -⟩ := hr.exists_fill a
          exact ⟨app l r', app l' r, app l' r', fill_right l hr', fill_left hl' r', fill_left hl' r,
            fill_right l' hr'⟩
      | @right _ q _ hr' =>
          obtain ⟨u, v, w, hu, huw, hv, hvw⟩ := ih hr' fun h => hne (h ▸ rfl)
          exact ⟨app l u, app l v, app l w, fill_right l hu, fill_right l huw, fill_right l hv,
            fill_right l hvw⟩

/-! ### The first hole -/

/-- The first hole of an application is in the operator, or else in the argument. -/
lemma firstHole?_app_eq_some : (app l r).firstHole? = some path ↔
    (∃ p, l.firstHole? = some p ∧ path = .left :: p) ∨
      l.firstHole? = none ∧ ∃ p, r.firstHole? = some p ∧ path = .right :: p := by
  rw [firstHole?]
  cases l.firstHole? <;> cases r.firstHole? <;> simp [eq_comm]

lemma firstHole?_eq_none : t.firstHole? = none ↔ t.holeCount = 0 := by
  induction t with
  | hole => exact ⟨nofun, nofun⟩
  | app l r ihl ihr => rw [firstHole?_app_eq_none, holeCount, Nat.add_eq_zero_iff, ihl, ihr]
  | leaf | var x | ref n => exact ⟨fun _ => rfl, fun _ => rfl⟩

/-- The first hole is a hole, and no hole comes before it. -/
lemma holeAt_of_firstHole? (h : t.firstHole? = some path) :
    HoleAt t path ∧ ∀ q, HoleAt t q → ¬ Path.Before q path := by
  induction t generalizing path with
  | hole =>
      cases h
      exact ⟨.here, fun q _ => Path.not_before_nil q⟩
  | app l r ihl ihr =>
      obtain ⟨p, hp, rfl⟩ | ⟨hl, p, hp, rfl⟩ := firstHole?_app_eq_some.mp h
      · obtain ⟨hhole, hfirst⟩ := ihl hp
        refine ⟨hhole.left r, fun q hq hbefore => ?_⟩
        rcases Path.before_left hbefore with rfl | ⟨q', rfl, hbehind⟩
        · cases hq
        · exact hfirst q' (holeAt_left.mp hq) hbehind
      · obtain ⟨hhole, hfirst⟩ := ihr hp
        refine ⟨hhole.right l, fun q hq hbefore => ?_⟩
        rcases Path.before_right hbefore with rfl | ⟨q', rfl⟩ | ⟨q', rfl, hbehind⟩
        · cases hq
        · exact holeCount_eq_zero.mp (firstHole?_eq_none.mp hl) q' (holeAt_left.mp hq)
        · exact hfirst q' (holeAt_right.mp hq) hbehind
  | leaf | var x | ref n => cases h

lemma firstHole?_eq_some : t.firstHole? = some path ↔
    HoleAt t path ∧ ∀ q, HoleAt t q → ¬ Path.Before q path := by
  refine ⟨holeAt_of_firstHole?, ?_⟩
  rintro ⟨hhole, hfirst⟩
  cases h : t.firstHole? with
  | none => exact absurd hhole (holeCount_eq_zero.mp (firstHole?_eq_none.mp h) path)
  | some p =>
      obtain ⟨hhole', hfirst'⟩ := holeAt_of_firstHole? h
      rw [Path.eq_of_not_before (hfirst p hhole') (hfirst' path hhole)]

/-! ### Templates and terms -/

lemma holeCount_ofTerm (s : Term) : (ofTerm s).holeCount = 0 := by
  induction s with
  | app l r ihl ihr => rw [ofTerm, holeCount, ihl, ihr]
  | leaf | var x | ref n => rfl

lemma firstHole?_ofTerm (s : Term) : (ofTerm s).firstHole? = none :=
  firstHole?_eq_none.mpr (holeCount_ofTerm s)

/-- The conversion of a template without holes is undone. -/
lemma ofTerm_convert (t : Template) (h : t.firstHole? = none) : ofTerm (t.convert h) = t := by
  induction t with
  | hole => cases h
  | app l r ihl ihr => rw [convert, ofTerm, ihl, ihr]
  | leaf | var x | ref n => rfl

/-- The conversion undoes that of a term. -/
lemma convert_ofTerm (s : Term) (h : (ofTerm s).firstHole? = none) : (ofTerm s).convert h = s := by
  induction s with
  | app l r ihl ihr => simp only [ofTerm, convert, ihl, ihr]
  | leaf | var x | ref n => rfl

/-- What keeps a template from being a term is its first hole. -/
lemma toTerm_eq_error {e : Incomplete} : t.toTerm = .error e ↔ t.firstHole? = some e.hole := by
  obtain ⟨path⟩ := e
  rw [toTerm]
  split
  · next hpath => simp [hpath]
  · next hnone => simp [hnone]

lemma toTerm_of_firstHole? (h : t.firstHole? = none) : t.toTerm = .ok (t.convert h) := by
  rw [toTerm]
  split
  · next hpath =>
      rw [h] at hpath
      cases hpath
  · rfl

/-- The template that a term comes from is that of the term. -/
lemma toTerm_eq_ok {s : Term} : t.toTerm = .ok s ↔ t = ofTerm s := by
  constructor
  · intro h
    cases hhole : t.firstHole? with
    | none =>
        rw [toTerm_of_firstHole? hhole] at h
        cases h
        exact (ofTerm_convert t hhole).symm
    | some path =>
        have herror : t.toTerm = .error ⟨path⟩ := toTerm_eq_error.mpr hhole
        rw [herror] at h
        cases h
  · rintro rfl
    rw [toTerm_of_firstHole? (firstHole?_ofTerm s), convert_ofTerm]

lemma toTerm_ofTerm (s : Term) : (ofTerm s).toTerm = .ok s := toTerm_eq_ok.mpr rfl

/-- A template is a term iff it has no hole. -/
lemma exists_toTerm_iff : (∃ s, t.toTerm = .ok s) ↔ t.holeCount = 0 := by
  constructor
  · rintro ⟨s, hs⟩
    rw [toTerm_eq_ok.mp hs, holeCount_ofTerm]
  · intro hcount
    cases h : t.toTerm with
    | ok s => exact ⟨s, rfl⟩
    | error e =>
        rw [toTerm_eq_error, firstHole?_eq_none.mpr hcount] at h
        cases h

/-- **Filling accounts for holes.** A path can be filled iff it leads to a hole, and the new
template has one hole less and those of what was put there. Two holes may be filled in either
order. The first hole is the one before which there is no other, and there is none iff there is no
hole at all; then and only then the template is that of a term, and this term is found. -/
theorem filling_accounts_for_holes (t : Template) :
    (∀ path new,
      ((∃ u, t.fill path new = .ok u) ↔ HoleAt t path) ∧
      (¬ HoleAt t path → ∃ e, t.fill path new = .error e) ∧
      ∀ u, t.fill path new = .ok u → u.holeCount = t.holeCount - 1 + new.holeCount) ∧
    (∀ p q a b, p ≠ q → HoleAt t p → HoleAt t q →
      ∃ w, (t.fill p a >>= fun u => u.fill q b) = .ok w ∧
        (t.fill q b >>= fun v => v.fill p a) = .ok w) ∧
    (t.holeCount = 0 ↔ ∀ path, ¬ HoleAt t path) ∧
    (t.firstHole? = none ↔ t.holeCount = 0) ∧
    (∀ path, t.firstHole? = some path ↔
      HoleAt t path ∧ ∀ q, HoleAt t q → ¬ Path.Before q path) ∧
    ((∃ s, t.toTerm = .ok s) ↔ t.holeCount = 0) ∧
    (∀ s, t.toTerm = .ok s ↔ t = ofTerm s) ∧
    ∀ s, (ofTerm s).holeCount = 0 := by
  refine ⟨fun path new => ⟨exists_fill_iff, fun hno => ?_, fun u hu => ?_⟩, ?_, holeCount_eq_zero,
    firstHole?_eq_none, fun path => firstHole?_eq_some, exists_toTerm_iff, fun s => toTerm_eq_ok,
    holeCount_ofTerm⟩
  · cases h : t.fill path new with
    | error e => exact ⟨e, rfl⟩
    | ok u => exact absurd (holeAt_of_fill h) hno
  · have hcount := holeCount_fill hu
    have hpos : t.holeCount ≠ 0 := fun h => holeCount_eq_zero.mp h path (holeAt_of_fill hu)
    omega
  · intro p q a b hne hp hq
    obtain ⟨u, v, w, hu, huw, hv, hvw⟩ := hp.fill_comm hq hne a b
    refine ⟨w, ?_, ?_⟩
    · simp only [hu, bind, Except.bind, huw]
    · simp only [hv, bind, Except.bind, hvw]

/-- Two holes are filled that part below the root, the first of them with something that has
holes. -/
theorem filling_accounts_for_holes_nested :
    let t : Template := app leaf (app hole (app (var "x") hole))
    let p : Path := [.right, .left]
    let q : Path := [.right, .right, .right]
    (p ≠ q ∧ HoleAt t p ∧ HoleAt t q) ∧
      ∃ w, (t.fill p emptyApp >>= fun u => u.fill q leaf) = .ok w ∧
        (t.fill q leaf >>= fun v => v.fill p emptyApp) = .ok w := by
  intro t p q
  have hp : HoleAt t p := .right _ (.left .here _)
  have hq : HoleAt t q := .right _ (.right _ (.right _ .here))
  exact ⟨⟨by decide, hp, hq⟩,
    (filling_accounts_for_holes t).2.1 p q emptyApp leaf (by decide) hp hq⟩

end TreeCalculus.Template
