import Mathlib.Tactic.Lemma
import TreeCalculus.Path

/-!
Dotted texts, and the texts of paths among them.

Every text is cut by its dots into a row of segments in exactly one way; a segment may be empty.
The text of a path has `root` for its first segment and the letters of the turns behind it, so it
is decided segment by segment whether a text is the text of a path, and what is wrong with it
otherwise.

* `Text.splitAt_intercalate`, `Text.intercalate_splitAt`: cutting and joining undo each other.
* `Text.Segmented`: the segments of a text.
* `Turn.segments_cases`: a row of segments spells turns, or one of them spells none.
* `Path.Fault`: what is wrong with a text that is the text of no path.
* `Path.parse_accepts_exactly_texts`: the outcome of reading a text.
-/

namespace TreeCalculus

/-! ### Cutting and joining -/

namespace Text

lemma splitPoints_eq_splitOn (sep : CodePoint) (cs : List CodePoint) :
    splitPoints sep cs = cs.splitOn sep := by
  induction cs with
  | nil => rfl
  | cons c cs ih =>
      have hne : cs.splitOn sep ≠ [] := List.splitOn_ne_nil sep cs
      rw [splitPoints, ih, List.splitOn_cons_eq_if_modifyHead]
      cases hparts : cs.splitOn sep with
      | nil => exact absurd hparts hne
      | cons part parts => simp [consFirst]

/-- Cutting undoes joining where no part holds the separator. -/
lemma splitAt_intercalate {sep : CodePoint} {parts : List Text}
    (hsep : ∀ t ∈ parts, sep ∉ t.toList) (hne : parts ≠ []) :
    splitAt sep (intercalate (.ofList [sep]) parts) = parts := by
  have hlists : ∀ l ∈ parts.map toList, sep ∉ l := by
    intro l hl
    obtain ⟨t, ht, rfl⟩ := List.mem_map.mp hl
    exact hsep t ht
  rw [splitAt, splitPoints_eq_splitOn, intercalate,
    List.splitOn_intercalate sep hlists (by simpa using hne), List.map_map]
  exact List.map_id parts

/-- Joining undoes cutting. -/
lemma intercalate_splitAt (sep : CodePoint) (s : Text) :
    intercalate (.ofList [sep]) (splitAt sep s) = s := by
  rw [intercalate, splitAt, List.map_map, splitPoints_eq_splitOn]
  exact congrArg ofList ((congrArg _ (List.map_id _)).trans (List.intercalate_splitOn sep))

/-- No part holds the separator. -/
lemma not_mem_of_mem_splitPoints {sep : CodePoint} {cs part : List CodePoint}
    (h : part ∈ splitPoints sep cs) : sep ∉ part := by
  induction cs generalizing part with
  | nil =>
      obtain rfl := List.mem_singleton.mp h
      exact List.not_mem_nil
  | cons c cs ih =>
      rw [splitPoints] at h
      by_cases hc : c = sep
      · rw [if_pos hc] at h
        rcases List.mem_cons.mp h with rfl | h
        · exact List.not_mem_nil
        · exact ih h
      · -- only the first part changes: it has `c` in front now
        rw [if_neg hc] at h
        cases hparts : splitPoints sep cs with
        | nil =>
            rw [hparts] at h
            obtain rfl := List.mem_singleton.mp h
            exact List.not_mem_cons_of_ne_of_not_mem (Ne.symm hc) List.not_mem_nil
        | cons first parts =>
            rw [hparts] at h ih
            rcases List.mem_cons.mp h with rfl | h
            · exact List.not_mem_cons_of_ne_of_not_mem (Ne.symm hc) (ih List.mem_cons_self)
            · exact ih (List.mem_cons_of_mem first h)

/-! ### Segments -/

/-- The segments of a text: it is `first` with the texts `rest` behind it, with dots between them
and none inside them. -/
structure Segmented (s first : Text) (rest : List Text) : Prop where
  eq_intercalate : s = intercalate "." (first :: rest)
  dot_not_mem : ∀ segment ∈ first :: rest, CodePoint.char '.' ∉ segment.toList

lemma Segmented.splitAt_eq {s first : Text} {rest : List Text} (h : s.Segmented first rest) :
    splitAt '.' s = first :: rest := by
  rw [h.eq_intercalate]
  exact splitAt_intercalate h.dot_not_mem (List.cons_ne_nil first rest)

/-- Every text has segments. -/
lemma exists_segmented (s : Text) : ∃ first rest, s.Segmented first rest := by
  have hjoin : intercalate "." (splitAt '.' s) = s := intercalate_splitAt '.' s
  have hdots : ∀ segment ∈ splitAt '.' s, CodePoint.char '.' ∉ segment.toList := by
    intro segment hmem
    obtain ⟨part, hpart, rfl⟩ := List.mem_map.mp hmem
    exact not_mem_of_mem_splitPoints hpart
  have hne : splitAt '.' s ≠ [] := by
    rw [splitAt, splitPoints_eq_splitOn]
    simp
  obtain ⟨first, rest, hparts⟩ := List.exists_cons_of_ne_nil hne
  rw [hparts] at hjoin hdots
  exact ⟨first, rest, hjoin.symm, hdots⟩

end Text

/-! ### Turns as segments -/

namespace Turn

/-- The segment for a turn. -/
def segment (turn : Turn) : Text := .ofList [.char turn.letter]

@[simp] lemma ofSegment?_segment (turn : Turn) : ofSegment? turn.segment.toList = some turn := by
  cases turn <;> rfl

lemma ofSegment?_eq_none {s : Text} (hleft : s ≠ "L") (hright : s ≠ "R") :
    ofSegment? s.toList = none := by
  have hL : s.toList ≠ [.char 'L'] := fun h => hleft (congrArg Text.ofList h)
  have hR : s.toList ≠ [.char 'R'] := fun h => hright (congrArg Text.ofList h)
  rw [ofSegment?, if_neg hL, if_neg hR]

/-- A row of segments spells turns, or one of them spells none. -/
lemma segments_cases (rest : List Text) :
    (∃ p : Path, rest = p.map segment) ∨ ∃ s ∈ rest, s ≠ "L" ∧ s ≠ "R" := by
  induction rest with
  | nil => exact .inl ⟨[], rfl⟩
  | cons s rest ih =>
      by_cases hs : ∃ turn : Turn, s = turn.segment
      · obtain ⟨turn, rfl⟩ := hs
        rcases ih with ⟨p, rfl⟩ | ⟨t, hmem, ht⟩
        · exact .inl ⟨turn :: p, rfl⟩
        · exact .inr ⟨t, List.mem_cons_of_mem _ hmem, ht⟩
      · refine .inr ⟨s, List.mem_cons_self, ?_, ?_⟩
        · exact fun h => hs ⟨.left, h⟩
        · exact fun h => hs ⟨.right, h⟩

lemma mapM_ofSegment?_segments (p : Path) :
    ((p.map segment).map Text.toList).mapM ofSegment? = some p := by
  induction p with
  | nil => rfl
  | cons turn p ih =>
      rw [List.map_cons, List.map_cons, List.mapM_cons, ofSegment?_segment, ih]
      rfl

lemma mapM_ofSegment?_eq_none {rest : List Text} {s : Text} (hmem : s ∈ rest) (hleft : s ≠ "L")
    (hright : s ≠ "R") : (rest.map Text.toList).mapM ofSegment? = none := by
  induction rest with
  | nil => cases hmem
  | cons t rest ih =>
      rw [List.map_cons, List.mapM_cons]
      rcases List.mem_cons.mp hmem with rfl | hmem
      · rw [ofSegment?_eq_none hleft hright]
        rfl
      · rw [ih hmem]
        cases ofSegment? t.toList <;> rfl

end Turn

/-! ### Texts of paths -/

namespace Path

/-- A dot in front of every letter puts the letters behind `first` with dots between them. -/
lemma append_flatMap_letters (first : List CodePoint) (p : Path) :
    first ++ p.flatMap (fun turn => [.char '.', .char turn.letter]) =
      List.intercalate [.char '.'] (first :: (p.map Turn.segment).map Text.toList) := by
  induction p generalizing first with
  | nil => simp
  | cons turn p ih =>
      rw [List.map_cons, List.map_cons, List.intercalate_cons_cons, ← ih]
      simp [Turn.segment]

/-- The segments of the text of a path. -/
lemma segmented_toText (p : Path) : p.toText.Segmented "root" (p.map Turn.segment) := by
  constructor
  · exact congrArg Text.ofList (append_flatMap_letters rootSegment p)
  · intro segment hmem
    rcases List.mem_cons.mp hmem with rfl | hmem
    · decide
    · obtain ⟨turn, -, rfl⟩ := List.mem_map.mp hmem
      cases turn <;> decide

/-- What is wrong with a text that is the text of no path. -/
inductive Fault (s : Text) : PathSyntaxError → Prop
  /-- The first segment is not `root`. -/
  | notRooted {first : Text} {rest : List Text} (hs : s.Segmented first rest)
      (hfirst : first ≠ "root") : Fault s (.notRooted s)
  /-- Behind `root` there is a segment, possibly an empty one, that is neither `L` nor `R`. -/
  | badSegment {rest : List Text} {segment : Text} (hs : s.Segmented "root" rest)
      (hmem : segment ∈ rest) (hleft : segment ≠ "L") (hright : segment ≠ "R") :
      Fault s (.badSegment s)

section Reading

variable {s first : Text} {rest : List Text}

lemma splitPoints_of_segmented (h : s.Segmented first rest) :
    Text.splitPoints '.' s.toList = first.toList :: rest.map Text.toList := by
  have hparts := congrArg (List.map Text.toList) h.splitAt_eq
  rw [Text.splitAt, List.map_map] at hparts
  exact (List.map_id _).symm.trans hparts

lemma parse_of_not_rooted (h : s.Segmented first rest) (hfirst : first ≠ "root") :
    parse s = .error (.notRooted s) := by
  have hne : first.toList ≠ rootSegment := fun heq => hfirst (congrArg Text.ofList heq)
  rw [parse, splitPoints_of_segmented h]
  simp only [hne, if_false]

/-- Behind `root` the segments decide, all together. -/
lemma parse_of_rooted (h : s.Segmented "root" rest) :
    parse s =
      ((rest.map Text.toList).mapM Turn.ofSegment?).elim (.error (.badSegment s)) .ok := by
  have hroot : (Text.ofString "root").toList = rootSegment := rfl
  rw [parse, splitPoints_of_segmented h]
  simp only [hroot, if_true]
  cases (rest.map Text.toList).mapM Turn.ofSegment? <;> rfl

lemma parse_toText (p : Path) : parse p.toText = .ok p := by
  rw [parse_of_rooted p.segmented_toText, Turn.mapM_ofSegment?_segments, Option.elim_some]

lemma Fault.parse_eq {reason : PathSyntaxError} (h : Fault s reason) :
    parse s = .error reason := by
  cases h with
  | notRooted hs hfirst => exact parse_of_not_rooted hs hfirst
  | badSegment hs hmem hleft hright =>
      rw [parse_of_rooted hs, Turn.mapM_ofSegment?_eq_none hmem hleft hright, Option.elim_none]

/-- A text is the text of a path, or something is wrong with it. -/
lemma eq_toText_or_fault (s : Text) : (∃ p : Path, s = p.toText) ∨ ∃ reason, Fault s reason := by
  obtain ⟨first, rest, hs⟩ := s.exists_segmented
  by_cases hfirst : first = "root"
  · subst hfirst
    rcases Turn.segments_cases rest with ⟨p, rfl⟩ | ⟨segment, hmem, hleft, hright⟩
    · exact .inl ⟨p, hs.eq_intercalate.trans p.segmented_toText.eq_intercalate.symm⟩
    · exact .inr ⟨_, .badSegment hs hmem hleft hright⟩
  · exact .inr ⟨_, .notRooted hs hfirst⟩

lemma parse_eq_ok_iff {p : Path} : parse s = .ok p ↔ s = p.toText := by
  constructor
  · intro h
    rcases eq_toText_or_fault s with ⟨q, rfl⟩ | ⟨reason, hfault⟩
    · rw [parse_toText] at h
      rw [Except.ok.inj h]
    · rw [hfault.parse_eq] at h
      cases h
  · rintro rfl
    exact parse_toText p

lemma parse_eq_error_iff {reason : PathSyntaxError} : parse s = .error reason ↔ Fault s reason := by
  constructor
  · intro h
    rcases eq_toText_or_fault s with ⟨q, rfl⟩ | ⟨reason', hfault⟩
    · rw [parse_toText] at h
      cases h
    · rw [hfault.parse_eq] at h
      rwa [← Except.error.inj h]
  · exact Fault.parse_eq

end Reading

/-- **Reading accepts exactly the texts of paths**: the text of a path, which is made of `root`
and the letters of its turns with dots between them, is read as this path; a text is read as a
path only if it is the text of this path; every other text is refused, and the reason given is
what is wrong with it. -/
theorem parse_accepts_exactly_texts (s : Text) :
    (∀ p : Path, p.toText.Segmented "root" (p.map Turn.segment) ∧ parse p.toText = .ok p) ∧
      (∀ p : Path, parse s = .ok p ↔ s = p.toText) ∧
      ((∀ p : Path, s ≠ p.toText) ↔ ∃ reason, parse s = .error reason) ∧
      ∀ reason, parse s = .error reason ↔ Fault s reason := by
  refine ⟨fun p => ⟨p.segmented_toText, p.parse_toText⟩, fun p => parse_eq_ok_iff,
    ⟨fun h => ?_, ?_⟩, fun reason => parse_eq_error_iff⟩
  · obtain ⟨p, hp⟩ | ⟨reason, hfault⟩ := eq_toText_or_fault s
    · exact absurd hp (h p)
    · exact ⟨reason, hfault.parse_eq⟩
  · rintro ⟨reason, herror⟩ p hp
    rw [parse_eq_ok_iff.mpr hp] at herror
    cases herror

/-- A dot at the end and two dots in a row leave empty segments, and the letters of `root` are all
small: neither text is the text of a path. -/
theorem parse_accepts_exactly_texts_stray_dots :
    (∀ p : Path, Text.ofString "root.L..R." ≠ p.toText) ∧
      Fault "root.L..R." (.badSegment "root.L..R.") ∧
      (∀ p : Path, Text.ofString "Root.L" ≠ p.toText) ∧
      Fault "Root.L" (.notRooted "Root.L") := by
  have hdots : parse "root.L..R." = .error (.badSegment "root.L..R.") := rfl
  have hcapital : parse "Root.L" = .error (.notRooted "Root.L") := rfl
  obtain ⟨-, -, hother, hreason⟩ := parse_accepts_exactly_texts "root.L..R."
  obtain ⟨-, -, hother', hreason'⟩ := parse_accepts_exactly_texts "Root.L"
  exact ⟨hother.mpr ⟨_, hdots⟩, (hreason _).mp hdots, hother'.mpr ⟨_, hcapital⟩,
    (hreason' _).mp hcapital⟩

end Path

end TreeCalculus
