import Mathlib.Data.List.Basic
import TreeCalculus.Proofs.Paths

/-!
The printed form determines the term.

A printed term is read from its end. What stands behind the last blank outside of parentheses is
the last argument: an atom, which has neither blanks nor parentheses, or else something in
parentheses. What stands before this blank is the operator, and it is read in the same way. So a
text cannot be cut in two ways into something before a term and a term, if what stands before can
be told from an operator with a blank behind it. It can if it is empty or ends with a parenthesis
that opens, and also if it ends with a sign between blanks that is not among the names.

* `Text.IsWord`: the names that can be told from what stands around them.
* `Term.argPoints`, `Term.points_app`: printed arguments.
* `WordBreak.append_inj`: the last word of a text.
* `OpensTerm`, `Term.Legible`: what may stand before a printed term, and the names it may have.
* `Term.argPoints_inj`, `Term.append_points_inj`: arguments and terms at the end of a text.
* `printed_form_determines`: the printed form of terms and of equations.
-/

namespace TreeCalculus

/-! ### Names -/

/-- The code points with a meaning of their own in printed terms. -/
def reservedPoints : List CodePoint :=
  [.char ' ', .char '(', .char ')', .char '<', .char '>', .char '△']

/-- A name that can be told from what stands around it. -/
def Text.IsWord (name : Text) : Prop :=
  name.toList ≠ [] ∧ ∀ c ∈ name.toList, c ∉ reservedPoints

instance (name : Text) : Decidable name.IsWord := inferInstanceAs (Decidable (_ ∧ _))

namespace Term

/-- The names of the variables and references of a term, from left to right. -/
def names : Term → List Text
  | leaf => []
  | var name => [name]
  | ref name => [name]
  | app left right => left.names ++ right.names

/-! ### Printed terms and arguments -/

/-- The code points of a printed term. -/
def points (t : Term) : List CodePoint := t.toText.toList

/-- The code points of a printed term where it is an argument. -/
def argPoints : Term → List CodePoint
  | app l r => [.char '('] ++ (app l r).points ++ [.char ')']
  | atom => atom.points

lemma points_app (l r : Term) : (app l r).points = l.points ++ [.char ' '] ++ r.argPoints := by
  have hblank : (Text.ofString " ").toList = [.char ' '] := rfl
  have hopen : (Text.ofString "(").toList = [.char '('] := rfl
  have hclose : (Text.ofString ")").toList = [.char ')'] := rfl
  cases r <;> simp [points, argPoints, toText, hblank, hopen, hclose]

lemma argPoints_of_atom {t : Term} (h : t.kind ≠ .app) : t.argPoints = t.points := by
  cases t with
  | app l r => exact absurd rfl h
  | leaf | var x | ref n => rfl

end Term

/-! ### Words -/

/-- Neither blanks nor parentheses. -/
def Solid (word : List CodePoint) : Prop :=
  ∀ c ∈ word, c ≠ .char ' ' ∧ c ≠ .char '(' ∧ c ≠ .char ')'

/-- A new word begins behind these code points: there are none, or the last of them is a blank or
opens a parenthesis. -/
def WordBreak (before : List CodePoint) : Prop :=
  ∀ c ∈ before.getLast?, c = .char ' ' ∨ c = .char '('

section Words

variable {before before' word word' : List CodePoint}

lemma wordBreak_concat {c : CodePoint} :
    WordBreak (before ++ [c]) ↔ c = .char ' ' ∨ c = .char '(' := by
  simp [WordBreak]

lemma wordBreak_blank (before : List CodePoint) : WordBreak (before ++ [.char ' ']) :=
  wordBreak_concat.mpr (.inl rfl)

lemma WordBreak.eq_nil_of_solid (h : WordBreak (before ++ word)) (hword : Solid word) :
    word = [] := by
  rcases word.eq_nil_or_concat with rfl | ⟨word, c, rfl⟩
  · rfl
  · rw [List.concat_eq_append] at h hword
    rw [← List.append_assoc, wordBreak_concat] at h
    obtain ⟨hblank, hopen, -⟩ := hword c (by simp)
    exact (h.elim hblank hopen).elim

/-- The last word of a text is determined, and so is what stands before it. -/
lemma WordBreak.append_inj (hbefore : WordBreak before) (hbefore' : WordBreak before')
    (hword : Solid word) (hword' : Solid word') (h : before ++ word = before' ++ word') :
    before = before' ∧ word = word' := by
  obtain ⟨more, rfl, rfl⟩ | ⟨more, rfl, rfl⟩ := List.append_eq_append_iff.mp h
  · obtain rfl := hbefore'.eq_nil_of_solid fun c hc => hword c (List.mem_append_left _ hc)
    exact ⟨(List.append_nil before).symm, rfl⟩
  · obtain rfl := hbefore.eq_nil_of_solid fun c hc => hword' c (List.mem_append_left _ hc)
    exact ⟨List.append_nil before', rfl⟩

end Words

lemma Text.IsWord.solid {name : Text} (h : name.IsWord) : Solid name.toList := by
  intro c hc
  have hreserved := h.2 c hc
  simp only [reservedPoints, List.mem_cons, not_or] at hreserved
  exact ⟨hreserved.1, hreserved.2.1, hreserved.2.2.1⟩

namespace Term

variable {s t : Term}

/-! ### Atoms -/

/-- A printed atom is a word. -/
lemma solid_points (hatom : t.kind ≠ .app) (ht : ∀ name ∈ t.names, name.IsWord) :
    Solid t.points := by
  cases t with
  | leaf => exact fun c hc => (by rw [List.mem_singleton.mp hc]; decide)
  | var x => exact (ht x (List.mem_singleton_self x)).solid
  | ref n =>
      have hn := (ht n (List.mem_singleton_self n)).solid
      have hpoints : (ref n).points = .char '<' :: (n.toList ++ [.char '>']) := rfl
      rw [hpoints]
      intro c hc
      rcases List.mem_cons.mp hc with rfl | hc
      · decide
      · rcases List.mem_append.mp hc with hc | hc
        · exact hn c hc
        · rw [List.mem_singleton.mp hc]
          decide
  | app l r => exact absurd rfl hatom

lemma points_ne_nil (hatom : t.kind ≠ .app) (ht : ∀ name ∈ t.names, name.IsWord) :
    t.points ≠ [] := by
  cases t with
  | leaf => exact List.cons_ne_nil _ _
  | var x => exact (ht x (List.mem_singleton_self x)).1
  | ref n => exact List.cons_ne_nil _ _
  | app l r => exact absurd rfl hatom

/-- No name is printed like a leaf or like a reference. -/
lemma not_reserved_of_points_var {x : Text} (hx : x.IsWord) {c : CodePoint} {rest : List CodePoint}
    (h : (var x).points = c :: rest) : c ∉ reservedPoints :=
  hx.2 c (by rw [show x.toList = c :: rest from h]; exact List.mem_cons_self)

/-- The printed form of an atom determines the atom. -/
lemma eq_of_points_eq (hs : s.kind ≠ .app) (ht : t.kind ≠ .app)
    (hs' : ∀ name ∈ s.names, name.IsWord) (ht' : ∀ name ∈ t.names, name.IsWord)
    (h : s.points = t.points) : s = t := by
  have hname {x : Text} (hx : ∀ name ∈ (var x).names, name.IsWord) : x.IsWord :=
    hx x (List.mem_singleton_self x)
  match s, t with
  | leaf, leaf => rfl
  | leaf, var x => exact absurd (by decide) (not_reserved_of_points_var (hname ht') h.symm)
  | leaf, ref n => exact absurd (List.cons.inj h).1 (by decide)
  | var x, leaf => exact absurd (by decide) (not_reserved_of_points_var (hname hs') h)
  | var x, var y => rw [show x = y from congrArg Text.ofList h]
  | var x, ref n => exact absurd (by decide) (not_reserved_of_points_var (hname hs') h)
  | ref n, leaf => exact absurd (List.cons.inj h).1 (by decide)
  | ref n, var x => exact absurd (by decide) (not_reserved_of_points_var (hname ht') h.symm)
  | ref n, ref m =>
      have hlist : n.toList = m.toList := List.append_cancel_right (List.cons.inj h).2
      rw [show n = m from congrArg Text.ofList hlist]
  | app _ _, _ => exact absurd rfl hs
  | _, app _ _ => exact absurd rfl ht

end Term

/-! ### What stands before a term -/

/-- What may stand before a printed term: nothing, or something that ends with a parenthesis that
opens or with one of the signs between blanks. -/
inductive OpensTerm (signs : List Text) : List CodePoint → Prop where
  | start : OpensTerm signs []
  | parenthesis (before : List CodePoint) : OpensTerm signs (before ++ [.char '('])
  | sign {word : Text} (before : List CodePoint) : word ∈ signs →
      OpensTerm signs (before ++ [.char ' '] ++ word.toList ++ [.char ' '])

lemma OpensTerm.wordBreak {signs : List Text} {before : List CodePoint}
    (h : OpensTerm signs before) : WordBreak before := by
  cases h with
  | start => exact fun c hc => nomatch hc
  | parenthesis before => exact wordBreak_concat.mpr (.inr rfl)
  | sign before _ => exact wordBreak_blank _

namespace Term

variable {s t : Term} {before before' : List CodePoint}

/-- A printed atom does not end like a term in parentheses. -/
lemma append_argPoints_ne {l r : Term} (hatom : t.kind ≠ .app)
    (ht : ∀ name ∈ t.names, name.IsWord) :
    before ++ t.argPoints ≠ before' ++ (app l r).argPoints := by
  intro h
  have hlast : t.points.getLast? = some (.char ')') := calc
    t.points.getLast? = (before ++ t.points).getLast? :=
      (List.getLast?_append_of_ne_nil before (points_ne_nil hatom ht)).symm
    _ = (before' ++ (app l r).argPoints).getLast? := by rw [← argPoints_of_atom hatom, h]
    _ = some (.char ')') := by rw [argPoints, ← List.append_assoc, List.getLast?_concat]
  exact (solid_points hatom ht _ (List.mem_of_getLast? hlast)).2.2 rfl

/-- An argument at the end of a text is determined, provided that a term between parentheses is. -/
lemma argPoints_inj (hs : ∀ name ∈ s.names, name.IsWord) (ht : ∀ name ∈ t.names, name.IsWord)
    (hinner : s.kind = .app → ∀ before before' : List CodePoint,
      before ++ [.char '('] ++ s.points = before' ++ [.char '('] ++ t.points →
        before ++ [.char '('] = before' ++ [.char '('] ∧ s = t)
    (hbefore : WordBreak before) (hbefore' : WordBreak before')
    (h : before ++ s.argPoints = before' ++ t.argPoints) : before = before' ∧ s = t := by
  by_cases hskind : s.kind = .app
  · obtain ⟨l, r, rfl⟩ := exists_app_of_kind hskind
    by_cases htkind : t.kind = .app
    · obtain ⟨l', r', rfl⟩ := exists_app_of_kind htkind
      simp only [argPoints, ← List.append_assoc] at h
      obtain ⟨hfront, heq⟩ := hinner hskind before before' (List.append_cancel_right h)
      exact ⟨List.append_cancel_right hfront, heq⟩
    · exact absurd h.symm (append_argPoints_ne htkind ht)
  · by_cases htkind : t.kind = .app
    · obtain ⟨l', r', rfl⟩ := exists_app_of_kind htkind
      exact absurd h (append_argPoints_ne hskind hs)
    · rw [argPoints_of_atom hskind, argPoints_of_atom htkind] at h
      obtain ⟨hfront, heq⟩ :=
        hbefore.append_inj hbefore' (solid_points hskind hs) (solid_points htkind ht) h
      exact ⟨hfront, eq_of_points_eq hskind htkind hs ht heq⟩

/-- A printed term ends with an argument or is an atom, which is printed like an argument. -/
lemma exists_last_argument (t : Term) : ∃ front last, t.points = front ++ argPoints last ∧
    (∀ before, WordBreak before → WordBreak (before ++ front)) ∧
      ∀ name ∈ last.names, name ∈ t.names := by
  cases t with
  | app l r =>
      refine ⟨l.points ++ [.char ' '], r, points_app l r, fun before _ => ?_,
        fun name => List.mem_append_right _⟩
      rw [← List.append_assoc]
      exact wordBreak_blank _
  | leaf => exact ⟨[], leaf, rfl, fun before h => by rwa [List.append_nil], fun _ => id⟩
  | var x => exact ⟨[], var x, rfl, fun before h => by rwa [List.append_nil], fun _ => id⟩
  | ref n => exact ⟨[], ref n, rfl, fun before h => by rwa [List.append_nil], fun _ => id⟩

variable {signs : List Text}

/-- All names of a term are words, and none of them is one of the signs. -/
def Legible (signs : List Text) (t : Term) : Prop := ∀ name ∈ t.names, name.IsWord ∧ name ∉ signs

lemma Legible.words (h : Legible signs t) : ∀ name ∈ t.names, name.IsWord :=
  fun name hname => (h name hname).1

lemma Legible.parts {l r : Term} (h : Legible signs (app l r)) :
    Legible signs l ∧ Legible signs r :=
  List.forall_mem_append.mp h

/-- An operator with a blank behind it is nothing that may stand before a term. -/
lemma not_opensTerm_behind (hsigns : ∀ word ∈ signs, word.IsWord) (ht : Legible signs t)
    (hbefore : WordBreak before) :
    ¬ OpensTerm signs (before ++ t.points ++ [.char ' ']) := by
  intro h
  generalize hwhole : before ++ t.points ++ [.char ' '] = whole at h
  cases h with
  | start => simp at hwhole
  | parenthesis front =>
      have hc := List.append_inj_right' hwhole rfl
      exact absurd hc (by decide)
  | @sign word front hword =>
      obtain ⟨inner, last, hpoints, hinner, hnames⟩ := exists_last_argument t
      have hcut :
          front ++ [.char ' '] ++ (var word).argPoints = before ++ inner ++ last.argPoints := by
        rw [List.append_assoc before, ← hpoints]
        exact (List.append_cancel_right hwhole).symm
      -- the sign would be the last argument of the operator
      obtain ⟨-, rfl⟩ := argPoints_inj (s := var word)
        (fun name hname => List.mem_singleton.mp hname ▸ hsigns word hword)
        (fun name hname => ht.words name (hnames name hname)) nofun (wordBreak_blank _)
        (hinner before hbefore) hcut
      exact (ht word (hnames word (List.mem_singleton_self word))).2 hword

/-- An atom at the end of a text cannot be read as an application. -/
lemma append_points_ne_app {l r : Term} (hsigns : ∀ word ∈ signs, word.IsWord)
    (hatom : s.kind ≠ .app) (hs : Legible signs s) (ht : Legible signs (app l r))
    (hbefore : OpensTerm signs before) (hbefore' : OpensTerm signs before') :
    before ++ s.points ≠ before' ++ (app l r).points := by
  intro h
  obtain ⟨hl, hr⟩ := ht.parts
  simp only [← argPoints_of_atom hatom, points_app, ← List.append_assoc] at h
  obtain ⟨rfl, -⟩ := argPoints_inj hs.words hr.words (fun hkind => absurd hkind hatom)
    hbefore.wordBreak (wordBreak_blank _) h
  exact not_opensTerm_behind hsigns hl hbefore'.wordBreak hbefore

/-- **A term at the end of a text** is determined, and so is what stands before it. -/
theorem append_points_inj (signs : List Text) (hsigns : ∀ word ∈ signs, word.IsWord)
    (hs : Legible signs s) (ht : Legible signs t) (hbefore : OpensTerm signs before)
    (hbefore' : OpensTerm signs before') (h : before ++ s.points = before' ++ t.points) :
    before = before' ∧ s = t := by
  induction s generalizing t before before' with
  | app l r ihl ihr =>
      by_cases htkind : t.kind = .app
      · obtain ⟨l', r', rfl⟩ := exists_app_of_kind htkind
        obtain ⟨hl, hr⟩ := hs.parts
        obtain ⟨hl', hr'⟩ := ht.parts
        simp only [points_app, ← List.append_assoc] at h
        -- the arguments agree first, then the operators
        obtain ⟨hfront, rfl⟩ := argPoints_inj hr.words hr'.words
          (fun _ front front' => ihr hr hr' (.parenthesis front) (.parenthesis front'))
          (wordBreak_blank _) (wordBreak_blank _) h
        obtain ⟨heq, rfl⟩ := ihl hl hl' hbefore hbefore' (List.append_cancel_right hfront)
        exact ⟨heq, rfl⟩
      · exact absurd h.symm (append_points_ne_app hsigns htkind ht hs hbefore' hbefore)
  | leaf | var x | ref n =>
      by_cases htkind : t.kind = .app
      · obtain ⟨l', r', rfl⟩ := exists_app_of_kind htkind
        exact absurd h (append_points_ne_app hsigns nofun hs ht hbefore hbefore')
      · -- atoms are printed like arguments
        rw [← argPoints_of_atom htkind] at h
        exact argPoints_inj hs.words ht.words nofun hbefore.wordBreak hbefore'.wordBreak h

end Term

/-! ### Equations -/

/-- The names of the variables and references of an equation. -/
def Equation.names (e : Equation) : List Text := e.lhs.names ++ e.rhs.names

lemma Equation.toList_toText (e : Equation) : e.toText.toList =
    e.lhs.points ++ [.char ' '] ++ (Text.ofString "=").toList ++ [.char ' '] ++ e.rhs.points := by
  have hmiddle : (Text.ofString " = ").toList =
      [.char ' '] ++ (Text.ofString "=").toList ++ [.char ' '] := rfl
  simp only [toText, Text.toList_append, hmiddle, Term.points, List.append_assoc]

/-- **The printed form determines the term**, if every name is a word, and it determines the
equation, if moreover no name is the sign between the sides. -/
theorem printed_form_determines :
    (∀ s t : Term, (∀ name ∈ s.names, name.IsWord) → (∀ name ∈ t.names, name.IsWord) →
      s.toText = t.toText → s = t) ∧
    ∀ e e' : Equation, (∀ name ∈ e.names, name.IsWord ∧ name ≠ "=") →
      (∀ name ∈ e'.names, name.IsWord ∧ name ≠ "=") → e.toText = e'.toText → e = e' := by
  have hterms {s t : Term} (hs : ∀ name ∈ s.names, name.IsWord) (ht : ∀ name ∈ t.names, name.IsWord)
      (h : s.points = t.points) : s = t := by
    have hlegible {u : Term} (hu : ∀ name ∈ u.names, name.IsWord) : u.Legible [] :=
      fun name hname => ⟨hu name hname, List.not_mem_nil⟩
    exact (Term.append_points_inj [] nofun (hlegible hs) (hlegible ht) .start .start h).2
  refine ⟨fun s t hs ht h => hterms hs ht (congrArg Text.toList h), ?_⟩
  rintro ⟨l, r⟩ ⟨l', r'⟩ hnames hnames' h
  have hsides {e : Equation} (he : ∀ name ∈ e.names, name.IsWord ∧ name ≠ "=") :
      e.lhs.Legible ["="] ∧ e.rhs.Legible ["="] :=
    List.forall_mem_append.mp fun name hname =>
      (he name hname).imp_right fun hne => by simpa using hne
  obtain ⟨hl, hr⟩ := hsides hnames
  obtain ⟨hl', hr'⟩ := hsides hnames'
  have hpoints := congrArg Text.toList h
  rw [Equation.toList_toText, Equation.toList_toText] at hpoints
  -- the right sides are read from the end, with the left sides and the sign before them
  obtain ⟨hfront, rfl⟩ := Term.append_points_inj ["="] (by decide) hr hr'
    (.sign l.points (List.mem_singleton_self _)) (.sign l'.points (List.mem_singleton_self _))
    hpoints
  obtain rfl : l = l' := hterms hl.words hl'.words (by simpa using hfront)
  rfl

/-- A term may have the sign for a name, and an equation may have it inside of names: each is the
only one that is printed like it. -/
theorem printed_form_determines_sign_in_names :
    let s : Term := .apply (.var "=") [.ref "=", .stem .leaf]
    let t : Term := .app (.app (.var "=") (.ref "=")) (.app .leaf .leaf)
    let e : Equation := ⟨.apply .leaf [.var "a=b", .ref "K"], .var "=="⟩
    let e' : Equation := ⟨.fork (.var "a=b") (.ref "K"), .var "=="⟩
    ((∀ name ∈ s.names, name.IsWord) ∧ s.toText = "= <=> (△ △)" ∧ s.toText = t.toText ∧ s = t) ∧
      (∀ name ∈ e.names, name.IsWord ∧ name ≠ "=") ∧ e.toText = "△ a=b <K> = ==" ∧
      e.toText = e'.toText ∧ e = e' := by
  intro s t e e'
  refine ⟨⟨by decide, by decide, by decide, ?_⟩, by decide, by decide, by decide, ?_⟩
  · exact printed_form_determines.1 s t (by decide) (by decide) (by decide)
  · exact printed_form_determines.2 e e' (by decide) (by decide) (by decide)

end TreeCalculus
