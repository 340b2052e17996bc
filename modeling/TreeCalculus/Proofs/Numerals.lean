import Mathlib.Data.List.DropRight
import Mathlib.Data.Nat.Digits.Defs
import Mathlib.Data.Set.List
import TreeCalculus.Text.Numeral

/-!
Rows of digits in free text.

A text without its blanks may be a row of basic digits. The reader of integers is given the text
with its blanks, and it has two notions of its own: the separators among the controls are no white
space to it, and it refuses rows that are too long. So it reads the number that the row stands for
exactly if there is no separator in the text and the row keeps to the limit.

* `Text.ofDigits`, `Text.forall_isBasicDigit_iff`: rows of digits as texts, and how they are
  recognised.
* `Text.numberOf`, `Text.digitsValue_points`: the number that a row stands for.
* `Text.isSeparator`, `Text.exists_margins`: the separators, and what `strip` removes from a text.
* `Text.readDigits_points`, `Text.readInt_of_front`, `Text.readInt_of_separator`: the reader takes
  the whole row, if it comes as far as that.
* `Text.HoldsRow`: texts that hold a row of digits; `HoldsRow.readInt_of_clean` and
  `HoldsRow.exists_readInt_eq_error` say when the row is read, and when it is not.
-/

namespace TreeCalculus.Text

/-! ### Rows of digits -/

/-- A basic digit as a code point. -/
def digitPoint (d : Fin 10) : CodePoint := .char (Nat.digitChar d)

/-- The text of a row of digits, the most significant one first. -/
def ofDigits (digits : List (Fin 10)) : Text := .ofList (digits.map digitPoint)

/-- The number that a row of digits stands for. -/
def numberOf (digits : List (Fin 10)) : Nat := Nat.ofDigits 10 (digits.reverse.map Fin.val)

lemma toNat_digitPoint (d : Fin 10) : (digitPoint d).toNat = d + 0x30 := by
  rw [digitPoint, CodePoint.toNat, Nat.toNat_digitChar_of_lt_ten d.isLt, Nat.add_comm]

lemma digitValue?_digitPoint (d : Fin 10) : digitValue? (digitPoint d) = some d.val := by
  revert d
  decide

lemma isDigit_digitPoint (d : Fin 10) : isDigit (digitPoint d) = true := by
  rw [isDigit, digitValue?_digitPoint]
  rfl

/-- The basic digits are the code points from `0` to `9`. -/
lemma isBasicDigit_iff {c : CodePoint} : isBasicDigit c = true ↔ ∃ d, c = digitPoint d := by
  simp only [isBasicDigit, Bool.and_eq_true, decide_eq_true_eq]
  constructor
  · intro h
    cases c with
    | char c =>
        rw [CodePoint.toNat] at h
        have hlt : c.toNat - 0x30 < 10 := by omega
        refine ⟨⟨c.toNat - 0x30, hlt⟩, congrArg CodePoint.char (Char.toNat_inj.mp ?_)⟩
        rw [Nat.toNat_digitChar_of_lt_ten hlt]
        omega
    | half n =>
        rw [CodePoint.toNat, CodePoint.firstHalf] at h
        omega
  · rintro ⟨d, rfl⟩
    rw [toNat_digitPoint]
    omega

/-- Code points that are all basic digits are those of a row of digits. -/
lemma forall_isBasicDigit_iff {cs : List CodePoint} :
    (∀ c ∈ cs, isBasicDigit c = true) ↔ ∃ digits : List (Fin 10), cs = digits.map digitPoint := by
  have hrange := Set.ext_iff.mp (Set.range_list_map digitPoint) cs
  simp only [Set.mem_range, Set.mem_ofPred_eq, eq_comm (b := cs), eq_comm (a := digitPoint _)]
    at hrange
  simp only [isBasicDigit_iff, hrange]

lemma ofDigits_injective : Function.Injective ofDigits := by
  have hpoint : Function.Injective digitPoint := by
    intro d e h
    have hvalue := (digitValue?_digitPoint d).symm.trans ((congrArg digitValue? h).trans
      (digitValue?_digitPoint e))
    exact Fin.ext (Option.some.inj hvalue)
  intro digits digits' h
  exact List.map_injective_iff.mpr hpoint (congrArg Text.toList h)

/-- The value of a row is computed from the front. -/
lemma digitsValue_points (digits : List (Fin 10)) :
    digitsValue (digits.map digitPoint) = numberOf digits := by
  induction digits using List.reverseRecOn with
  | nil => rfl
  | append_singleton digits d ih =>
      have hlast : digitsValue ((digits ++ [d]).map digitPoint) =
          10 * digitsValue (digits.map digitPoint) + d := by
        simp [digitsValue, digitValue?_digitPoint]
      rw [hlast, ih, numberOf, numberOf, List.reverse_concat, List.map_cons, Nat.ofDigits_cons,
        Nat.add_comm]

/-- Zeros in front do not count. -/
lemma numberOf_zeros_append (k : Nat) (digits : List (Fin 10)) :
    numberOf (List.replicate k 0 ++ digits) = numberOf digits := by
  rw [numberOf, List.reverse_append, List.reverse_replicate, List.map_append, List.map_replicate]
  exact Nat.ofDigits_append_replicate_zero _

/-! ### Margins -/

/-- The separators among the controls. -/
def isSeparator (c : CodePoint) : Bool := 0x1c ≤ c.toNat && c.toNat ≤ 0x1f

/-- What is stripped from a text are blanks in front and behind. -/
lemma exists_margins (t : Text) :
    ∃ before after, t.toList = before ++ (strip t).toList ++ after ∧
      (∀ c ∈ before, isBlank c = true) ∧ ∀ c ∈ after, isBlank c = true := by
  refine ⟨t.toList.takeWhile isBlank, (t.toList.dropWhile isBlank).rtakeWhile isBlank, ?_,
    fun c => List.mem_takeWhile_imp, fun c => List.mem_rtakeWhile_imp⟩
  have hstrip : (strip t).toList = (t.toList.dropWhile isBlank).rdropWhile isBlank := rfl
  rw [hstrip, List.append_assoc, List.rdropWhile_append_rtakeWhile, List.takeWhile_append_dropWhile]

/-- To the reader of integers the separators are no blanks, and the other blanks are. -/
lemma isNumeralBlank_iff {c : CodePoint} (h : isBlank c = true) :
    isNumeralBlank c = true ↔ ¬ isSeparator c = true := by
  rw [isNumeralBlank, h, isSeparator, Bool.true_and, Bool.not_eq_true', Bool.not_eq_true]

lemma isBlank_digitPoint (d : Fin 10) : isBlank (digitPoint d) = false := by
  revert d
  decide

lemma digitPoint_ne (d : Fin 10) :
    digitPoint d ≠ .char '-' ∧ digitPoint d ≠ .char '+' ∧ digitPoint d ≠ .char '_' := by
  revert d
  decide

lemma isSeparator_digitPoint (d : Fin 10) : ¬ isSeparator (digitPoint d) = true := by
  revert d
  decide

/-- Nothing is stripped from a row of digits. -/
lemma strip_ofDigits (digits : List (Fin 10)) : strip (ofDigits digits) = ofDigits digits := by
  have hkeep : ∀ ds : List (Fin 10), (ds.map digitPoint).dropWhile isBlank = ds.map digitPoint := by
    intro ds
    cases ds with
    | nil => rfl
    | cons d ds => exact List.dropWhile_cons_of_neg (by simp [isBlank_digitPoint])
  rw [strip, ofDigits, hkeep, ← List.map_reverse, hkeep, List.map_reverse, List.reverse_reverse]

/-- A text is a row of digits, at least one, with blanks around it. -/
structure HoldsRow (text : Text) (digits : List (Fin 10)) : Prop where
  ne_nil : digits ≠ []
  strip_eq : strip text = ofDigits digits

/-- A row of digits holds itself. -/
lemma holdsRow_ofDigits {digits : List (Fin 10)} (hne : digits ≠ []) :
    HoldsRow (ofDigits digits) digits :=
  ⟨hne, strip_ofDigits digits⟩

section HoldsRow

variable {text : Text} {digits digits' : List (Fin 10)}

/-- The row in a text is determined. -/
lemma HoldsRow.unique (h : HoldsRow text digits) (h' : HoldsRow text digits') : digits = digits' :=
  ofDigits_injective (h.strip_eq.symm.trans h'.strip_eq)

/-- There is no row in the empty text. -/
lemma HoldsRow.ne_empty (h : HoldsRow text digits) : text ≠ "" := by
  rintro rfl
  have hlist : [] = digits.map digitPoint := congrArg Text.toList h.strip_eq
  exact h.ne_nil (List.map_eq_nil_iff.mp hlist.symm)

/-- A text is cut into blanks, its row and blanks. -/
lemma HoldsRow.exists_margins (h : HoldsRow text digits) :
    ∃ before after, text.toList = before ++ digits.map digitPoint ++ after ∧
      (∀ c ∈ before, isBlank c = true) ∧ ∀ c ∈ after, isBlank c = true := by
  have hmargins := Text.exists_margins text
  rw [h.strip_eq] at hmargins
  exact hmargins

end HoldsRow

/-- No blank is a digit of any script: the ranges of the blanks lie between the rows of digits. -/
lemma isDigit_of_isBlank {c : CodePoint} (h : isBlank c = true) : isDigit c = false := by
  have hapart : ∀ range ∈ blankRanges, ∀ first ∈ digitZeros,
      range.2 < first ∨ first + 10 ≤ range.1 := by decide
  obtain ⟨range, hrange, hc⟩ := List.any_eq_true.mp h
  rw [isDigit, digitValue?, Option.isSome_map, ← Bool.not_eq_true, List.find?_isSome]
  rintro ⟨first, hfirst, hdigit⟩
  simp only [Bool.and_eq_true, decide_eq_true_eq] at hc hdigit
  rcases hapart range hrange first hfirst with hlow | hhigh
  · omega
  · omega

/-- No blank is a sign or an underscore. -/
lemma ne_of_isBlank {c : CodePoint} (h : isBlank c = true) :
    c ≠ .char '-' ∧ c ≠ .char '+' ∧ c ≠ .char '_' := by
  refine ⟨?_, ?_, ?_⟩ <;> rintro rfl <;> exact absurd h (by decide)

/-! ### Reading -/

lemma readSign_of_ne {c : CodePoint} (hminus : c ≠ .char '-') (hplus : c ≠ .char '+')
    (rest : List CodePoint) : readSign (c :: rest) = (false, c :: rest) := by
  unfold readSign
  split
  · simp_all
  · simp_all
  · rfl

/-- A digit in front of a code point other than an underscore. -/
lemma readDigits_cons_cons {c d : CodePoint} (hc : isDigit c = true) (hd : d ≠ .char '_')
    (more : List CodePoint) :
    readDigits (c :: d :: more) =
      if isDigit d then (readDigits (d :: more)).map fun read => (c :: read.1, read.2)
      else some ([c], d :: more) := by
  rw [readDigits.eq_def]
  simp [hc]

/-- A row of digits is taken as a whole if only blanks stand behind it. -/
lemma readDigits_points {digits : List (Fin 10)} (hne : digits ≠ []) {after : List CodePoint}
    (hafter : ∀ c ∈ after, isBlank c = true) :
    readDigits (digits.map digitPoint ++ after) = some (digits.map digitPoint, after) := by
  induction digits with
  | nil => exact absurd rfl hne
  | cons d digits ih =>
      cases digits with
      | nil =>
          cases after with
          | nil =>
              rw [readDigits.eq_def]
              simp [isDigit_digitPoint]
          | cons c after =>
              have hc := hafter c List.mem_cons_self
              exact (readDigits_cons_cons (isDigit_digitPoint d) (ne_of_isBlank hc).2.2 after).trans
                (if_neg (by rw [isDigit_of_isBlank hc]; exact Bool.false_ne_true))
      | cons e digits =>
          have hstep := readDigits_cons_cons (isDigit_digitPoint d) (digitPoint_ne e).2.2
            (digits.map digitPoint ++ after)
          rw [if_pos (isDigit_digitPoint e)] at hstep
          have hrest := ih (List.cons_ne_nil e digits)
          simp only [List.map_cons, List.cons_append] at hrest ⊢
          rw [hstep, hrest, Option.map_some]

section Margins

variable {text : Text} {digits : List (Fin 10)} {before after : List CodePoint}

/-- Once the blanks in front have been passed over, the row is taken. What comes of it depends on
its length, and then on what stands behind it. -/
lemma readInt_of_front (hne : digits ≠ [])
    (htext : text.toList = before ++ digits.map digitPoint ++ after)
    (hbefore : ∀ c ∈ before, isNumeralBlank c = true) (hafter : ∀ c ∈ after, isBlank c = true) :
    readInt text =
      if digitLimit < digits.length then .error (.tooLong digits.length)
      else if after.all isNumeralBlank then .ok (numberOf digits : Int)
      else .error (.malformed text) := by
  obtain ⟨d, rest, rfl⟩ := List.exists_cons_of_ne_nil hne
  have hblank : isNumeralBlank (digitPoint d) ≠ true := by
    rw [isNumeralBlank, isBlank_digitPoint]
    exact Bool.false_ne_true
  have hdrop : text.toList.dropWhile isNumeralBlank = (d :: rest).map digitPoint ++ after := by
    rw [htext, List.append_assoc, List.dropWhile_append_of_pos hbefore]
    exact List.dropWhile_cons_of_neg hblank
  have hsign : readSign ((d :: rest).map digitPoint ++ after) =
      (false, (d :: rest).map digitPoint ++ after) :=
    readSign_of_ne (digitPoint_ne d).1 (digitPoint_ne d).2.1 _
  simp only [readInt, hdrop, hsign, readDigits_points hne hafter, digitsValue_points,
    List.length_map, Bool.false_eq_true, if_false]

/-- At a separator in front of everything else no integer begins. -/
lemma readInt_of_separator (htext : text.toList = before ++ after)
    (hbefore : ∀ c ∈ before, isBlank c = true) (hsep : ∃ c ∈ before, isSeparator c = true) :
    readInt text = .error (.malformed text) := by
  cases hfirst : before.dropWhile isNumeralBlank with
  | nil =>
      obtain ⟨c, hc, hcsep⟩ := hsep
      have hblank := List.dropWhile_eq_nil_iff.mp hfirst c hc
      exact absurd hcsep ((isNumeralBlank_iff (hbefore c hc)).mp hblank)
  | cons c more =>
      have hc : isBlank c = true :=
        hbefore c ((List.dropWhile_sublist _).subset (by rw [hfirst]; exact List.mem_cons_self))
      have hdrop : text.toList.dropWhile isNumeralBlank = c :: (more ++ after) := by
        rw [htext, List.dropWhile_append, hfirst]
        rfl
      have hsign : readSign (c :: (more ++ after)) = (false, c :: (more ++ after)) :=
        readSign_of_ne (ne_of_isBlank hc).1 (ne_of_isBlank hc).2.1 _
      have hread : readDigits (c :: (more ++ after)) = none := by
        rw [readDigits.eq_def]
        simp [isDigit_of_isBlank hc]
      simp only [readInt, hdrop, hsign, hread]

end Margins

section Rows

variable {text : Text} {digits : List (Fin 10)}

/-- A row of digits is read if none of the blanks around it is a separator and it keeps to the
limit. -/
lemma HoldsRow.readInt_of_clean (h : HoldsRow text digits)
    (hclean : ¬ ∃ c ∈ text.toList, isSeparator c = true) (hlimit : digits.length ≤ digitLimit) :
    readInt text = .ok (numberOf digits : Int) := by
  obtain ⟨before, after, htext, hbefore, hafter⟩ := h.exists_margins
  have hblank : ∀ c, isBlank c = true → c ∈ text.toList → isNumeralBlank c = true :=
    fun c hc hmem => (isNumeralBlank_iff hc).mpr fun hsep => hclean ⟨c, hmem, hsep⟩
  have hfront : ∀ c ∈ before, isNumeralBlank c = true := fun c hc =>
    hblank c (hbefore c hc) (by rw [htext]; simp [hc])
  have hback : after.all isNumeralBlank = true := List.all_eq_true.mpr fun c hc =>
    hblank c (hafter c hc) (by rw [htext]; simp [hc])
  rw [readInt_of_front h.ne_nil htext hfront hafter, if_neg (Nat.not_lt.mpr hlimit), if_pos hback]

/-- Otherwise it is not read. -/
lemma HoldsRow.exists_readInt_eq_error (h : HoldsRow text digits)
    (hbad : (∃ c ∈ text.toList, isSeparator c = true) ∨ digitLimit < digits.length) :
    ∃ e, readInt text = .error e := by
  obtain ⟨before, after, htext, hbefore, hafter⟩ := h.exists_margins
  by_cases hsep : ∃ c ∈ before, isSeparator c = true
  · rw [List.append_assoc] at htext
    exact ⟨_, readInt_of_separator htext hbefore hsep⟩
  · -- the row is taken, so it is too long, or the separator stands behind it
    have hfront : ∀ c ∈ before, isNumeralBlank c = true := fun c hc =>
      (isNumeralBlank_iff (hbefore c hc)).mpr fun hc' => hsep ⟨c, hc, hc'⟩
    rw [readInt_of_front h.ne_nil htext hfront hafter]
    by_cases hlimit : digitLimit < digits.length
    · exact ⟨_, if_pos hlimit⟩
    · obtain ⟨c, hc, hcsep⟩ := hbad.resolve_right hlimit
      have hback : after.all isNumeralBlank ≠ true := by
        intro hall
        rw [htext, List.mem_append, List.mem_append] at hc
        rcases hc with (hc | hc) | hc
        · exact hsep ⟨c, hc, hcsep⟩
        · obtain ⟨d, -, rfl⟩ := List.mem_map.mp hc
          exact isSeparator_digitPoint d hcsep
        · exact (isNumeralBlank_iff (hafter c hc)).mp (List.all_eq_true.mp hall c hc) hcsep
      exact ⟨_, by rw [if_neg hlimit, if_neg hback]⟩

end Rows

/-- A row that exceeds the limit is not read even where it stands alone. -/
lemma readInt_ofDigits_of_long {digits : List (Fin 10)} (h : digitLimit < digits.length) :
    readInt (ofDigits digits) = .error (.tooLong digits.length) := by
  have hne : digits ≠ [] := List.ne_nil_of_length_pos (Nat.zero_lt_of_lt h)
  have htext : (ofDigits digits).toList = [] ++ digits.map digitPoint ++ [] := by
    rw [List.nil_append, List.append_nil, ofDigits]
  rw [readInt_of_front hne htext (by simp) (by simp), if_pos h]

end TreeCalculus.Text
