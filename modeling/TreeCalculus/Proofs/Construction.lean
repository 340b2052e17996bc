import TreeCalculus.Proofs.Holes

/-!
Building terms by filling holes.

A construction fills the first hole of a template again and again. Each hole is to become a given
term, and what is put into it follows the term in pre-order: an application with both parts open
for an application, an atom for itself. The walk through the term and the search for the first
hole stay in step. When a term has been walked through, what was the first hole holds this term,
and the next hole is the first one.

* `Term.preorder`, `Template.pieces`: the walk through a term, and what is put into the holes.
* `Template.Builds`: a construction, with an incomplete template before each of its steps.
* `Template.plug`: terms in the place of the holes, from left to right.
* `Template.fill_fill`, `Template.firstHole?_fill`: filling inside of what was filled in, and the
  first hole there.
* `Template.builds_pieces`: one hole becomes a term.
* `Template.builds_leftmost_first`: all holes become terms.
-/

namespace TreeCalculus

/-- The subterms of a term as a walk in pre-order meets them. -/
def Term.preorder : Term → List Term
  | leaf => [leaf]
  | var name => [var name]
  | ref name => [ref name]
  | app left right => app left right :: (left.preorder ++ right.preorder)

namespace Template

variable {t u v new : Template} {p q path : Path}

/-! ### Constructions -/

/-- What is put into a hole that is to become a term: an application with both parts open where the
term is an application, and the term itself where it is an atom. -/
def piece : Term → Template
  | .app _ _ => emptyApp
  | atom => ofTerm atom

/-- What is put into the holes one after the other so that the first of them becomes a term. -/
def pieces (s : Term) : List Template := s.preorder.map piece

/-- A construction: the first hole is filled with one piece after the other, and before each piece
the template is incomplete. -/
inductive Builds : Template → List Template → Template → Prop where
  | done (t : Template) : Builds t [] t
  | fill {t t' u piece : Template} {rest : List Template} {path : Path} {e : Incomplete} :
      t.firstHole? = some path → t.toTerm = .error e → t.fill path piece = .ok t' →
      Builds t' rest u → Builds t (piece :: rest) u

lemma Builds.trans {before behind : List Template} (h : Builds t before u)
    (h' : Builds u behind v) : Builds t (before ++ behind) v := by
  induction h with
  | done t => exact h'
  | fill hfirst herror hfill _ ih => exact .fill hfirst herror hfill (ih h')

/-- The first hole can be filled, and then the construction goes on. -/
lemma Builds.next {rest : List Template} (h : t.firstHole? = some path)
    (hu : t.fill path new = .ok u) (hrest : Builds u rest v) : Builds t (new :: rest) v :=
  .fill h (toTerm_eq_error (e := ⟨path⟩) |>.mpr h) hu hrest

/-- The term that a template becomes when terms are put into its holes from left to right; where
terms are wanting there are leaves. -/
def plug : Template → List Term → Term
  | hole, [] => .leaf
  | hole, s :: _ => s
  | leaf, _ => .leaf
  | var name, _ => .var name
  | ref name, _ => .ref name
  | app left right, ss =>
      .app (left.plug (ss.take left.holeCount)) (right.plug (ss.drop left.holeCount))

/-! ### Filling inside of what was filled in -/

/-- To fill a hole and then a hole of what was put there is to put there what is filled already. -/
lemma fill_fill {new' w : Template} (hu : t.fill p new = .ok u) (hw : new.fill q new' = .ok w) :
    u.fill (p ++ q) new' = t.fill p w := by
  have hhole := holeAt_of_fill hu
  induction hhole generalizing u with
  | here =>
      obtain rfl : new = u := Except.ok.inj hu
      exact hw
  | left hl r ih =>
      obtain ⟨l', hl', -⟩ := hl.exists_fill new
      obtain rfl := Except.ok.inj ((fill_left hl' r).symm.trans hu)
      rw [List.cons_append, fill, fill, ih hl']
  | right l hr ih =>
      obtain ⟨r', hr', -⟩ := hr.exists_fill new
      obtain rfl := Except.ok.inj ((fill_right l hr').symm.trans hu)
      rw [List.cons_append, fill, fill, ih hr']

/-- The first hole can be filled with anything. -/
lemma exists_fill_of_firstHole? (h : t.firstHole? = some path) (new : Template) :
    ∃ u, t.fill path new = .ok u :=
  exists_fill_iff.mpr (holeAt_of_firstHole? h).1

/-- If the first hole is filled, the first hole of what was put there is the first of all. -/
lemma firstHole?_fill (h : t.firstHole? = some p) (hu : t.fill p new = .ok u)
    (hq : new.firstHole? = some q) : u.firstHole? = some (p ++ q) := by
  induction t generalizing p u with
  | hole =>
      cases h
      obtain rfl : new = u := Except.ok.inj hu
      exact hq
  | app l r ihl ihr =>
      obtain ⟨p, hp, rfl⟩ | ⟨hl, p, hp, rfl⟩ := firstHole?_app_eq_some.mp h
      · obtain ⟨l', hl'⟩ := exists_fill_of_firstHole? hp new
        obtain rfl := Except.ok.inj ((fill_left hl' r).symm.trans hu)
        exact firstHole?_app_eq_some.mpr (.inl ⟨p ++ q, ihl hp hl', rfl⟩)
      · obtain ⟨r', hr'⟩ := exists_fill_of_firstHole? hp new
        obtain rfl := Except.ok.inj ((fill_right l hr').symm.trans hu)
        exact firstHole?_app_eq_some.mpr (.inr ⟨hl, p ++ q, ihr hp hr', rfl⟩)
  | leaf | var x | ref n => cases h

/-! ### One hole -/

/-- **One hole becomes a term**: the pieces of a term turn the first hole into this term. -/
theorem builds_pieces (s : Term) (h : t.firstHole? = some path) :
    ∃ u, t.fill path (ofTerm s) = .ok u ∧ Builds t (pieces s) u := by
  induction s generalizing t path with
  | app l r ihl ihr =>
      obtain ⟨t₀, h₀⟩ := exists_fill_of_firstHole? h emptyApp
      -- the operator is built in the left one of the two new holes
      have hfirst₀ : t₀.firstHole? = some (path ++ [.left]) := firstHole?_fill h h₀ rfl
      obtain ⟨t₁, h₁, hbuilds₁⟩ := ihl hfirst₀
      have hin₁ : t.fill path (app (ofTerm l) hole) = .ok t₁ := by
        rw [← fill_fill h₀ (q := [.left]) rfl]
        exact h₁
      -- then the right one is the first hole
      have hfirst₁ : t₁.firstHole? = some (path ++ [.right]) :=
        firstHole?_fill h hin₁
          (firstHole?_app_eq_some.mpr (.inr ⟨firstHole?_ofTerm l, [], rfl, rfl⟩))
      obtain ⟨t₂, h₂, hbuilds₂⟩ := ihr hfirst₁
      have hin₂ : t.fill path (app (ofTerm l) (ofTerm r)) = .ok t₂ := by
        rw [← fill_fill hin₁ (q := [.right]) rfl]
        exact h₂
      refine ⟨t₂, hin₂, ?_⟩
      rw [pieces, Term.preorder, List.map_cons, List.map_append]
      exact .next h h₀ (hbuilds₁.trans hbuilds₂)
  | leaf | var x | ref n =>
      obtain ⟨u, hu⟩ := exists_fill_of_firstHole? h (ofTerm _)
      exact ⟨u, hu, .next h hu (.done u)⟩

/-! ### All holes -/

lemma plug_ofTerm (s : Term) (ss : List Term) : (ofTerm s).plug ss = s := by
  induction s generalizing ss with
  | app l r ihl ihr => rw [ofTerm, plug, ihl, ihr]
  | leaf | var x | ref n => rfl

/-- To put a term into the first hole leaves one term less to put. -/
lemma plug_fill {s : Term} (h : t.firstHole? = some path) (hu : t.fill path (ofTerm s) = .ok u)
    (ss : List Term) : u.plug ss = t.plug (s :: ss) := by
  induction t generalizing path u ss with
  | hole =>
      cases h
      obtain rfl : ofTerm s = u := Except.ok.inj hu
      exact plug_ofTerm s ss
  | app l r ihl ihr =>
      obtain ⟨p, hp, rfl⟩ | ⟨hl, p, hp, rfl⟩ := firstHole?_app_eq_some.mp h
      · obtain ⟨l', hl'⟩ := exists_fill_of_firstHole? hp (ofTerm s)
        obtain rfl := Except.ok.inj ((fill_left hl' r).symm.trans hu)
        have hcount : l.holeCount = l'.holeCount + 1 := by
          rw [holeCount_fill hl', holeCount_ofTerm, Nat.add_zero]
        rw [plug, plug, hcount, List.take_succ_cons, List.drop_succ_cons, ihl hp hl']
      · obtain ⟨r', hr'⟩ := exists_fill_of_firstHole? hp (ofTerm s)
        obtain rfl := Except.ok.inj ((fill_right l hr').symm.trans hu)
        have hcount : l.holeCount = 0 := firstHole?_eq_none.mp hl
        simp only [plug, hcount, List.take_zero, List.drop_zero, ihr hp hr']
  | leaf | var x | ref n => cases h

/-- The pieces of as many terms as there are holes build the template with these terms in its
holes. -/
lemma builds_plug {ss : List Term} (h : ss.length = t.holeCount) :
    Builds t (ss.flatMap pieces) (ofTerm (t.plug ss)) := by
  induction ss generalizing t with
  | nil =>
      obtain ⟨s, hs⟩ := exists_toTerm_iff.mpr h.symm
      obtain rfl := toTerm_eq_ok.mp hs
      rw [plug_ofTerm]
      exact .done _
  | cons s ss ih =>
      cases hfirst : t.firstHole? with
      | none =>
          rw [firstHole?_eq_none.mp hfirst] at h
          cases h
      | some path =>
          obtain ⟨u, hu, hbuilds⟩ := builds_pieces s hfirst
          have hcount : ss.length = u.holeCount := by
            have hfill := holeCount_fill hu
            rw [holeCount_ofTerm, ← h, List.length_cons] at hfill
            omega
          rw [List.flatMap_cons, ← plug_fill hfirst hu ss]
          exact hbuilds.trans (ih hcount)

/-- **Every term is built, first hole first.** Given a template and a term for each of its holes,
let the first hole be filled with the pieces of these terms, one after the other. Each filling
succeeds, with an incomplete template before it, and at last no hole is left and the template is
the term that has the given ones in the place of the holes. So every term is built from a single
hole. -/
theorem builds_leftmost_first (t : Template) (ss : List Term) (h : ss.length = t.holeCount) :
    (∃ u, Builds t (ss.flatMap pieces) u ∧ u.firstHole? = none ∧ u.toTerm = .ok (t.plug ss)) ∧
      ∀ s, ∃ u, Builds hole (pieces s) u ∧ u.firstHole? = none ∧ u.toTerm = .ok s := by
  refine ⟨⟨_, builds_plug h, firstHole?_ofTerm _, toTerm_ofTerm _⟩, fun s => ?_⟩
  obtain ⟨u, hu, hbuilds⟩ := builds_pieces s (t := hole) rfl
  obtain rfl : ofTerm s = u := Except.ok.inj hu
  exact ⟨_, hbuilds, firstHole?_ofTerm s, toTerm_ofTerm s⟩

/-- Two holes become a stem and a reference; on the way there are three holes. -/
theorem builds_leftmost_first_stem_and_reference :
    let t : Template := app hole (app (var "x") hole)
    let ss : List Term := [.stem .leaf, .ref "K"]
    ss.length = t.holeCount ∧
      ∃ u, Builds t [emptyApp, leaf, leaf, ref "K"] u ∧ u.firstHole? = none ∧
        u.toTerm = .ok (.app (.stem .leaf) (.app (.var "x") (.ref "K"))) := by
  intro t ss
  exact ⟨rfl, (builds_leftmost_first t ss rfl).1⟩

end Template

end TreeCalculus
