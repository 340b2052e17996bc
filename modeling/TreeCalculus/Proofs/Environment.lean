import TreeCalculus.Proofs.Numerals
import TreeCalculus.Settings

/-!
Which environments give settings.

A variable that is unset or empty stands for the default. Otherwise the bound is stated by a row
of digits for a positive number, and the level by its name, with blanks around them. Whether the
value is a row of digits is decided without the blanks, but the number is read with them, and
there the two notions of white space part: at a separator, or at a row that is too long, reading
breaks down where a verdict is due. At all other values there is a verdict, and it is the right
one.

* `Settings.StatesBound`, `Settings.StatesLevel`: what the value of a variable states.
* `Settings.BreaksDown`: the values at which reading breaks down.
* `Settings.readSteps_cases`, `Settings.readLevel_cases`: the outcomes of the two readers.
* `Settings.read_verdicts`: the outcome of reading an environment.
-/

namespace TreeCalculus

/-- A level is known by its name in capitals. -/
lemma LogLevel.ofText?_eq_some {text : Text} {level : LogLevel} :
    LogLevel.ofText? text = some level ↔
      Text.basicUpper? (Text.strip text) = some level.name := by
  have hname : ∀ l : LogLevel, LogLevel.all.find? (·.name == l.name) = some l := by
    intro l
    cases l <;> decide
  rw [LogLevel.ofText?, Option.bind_eq_some_iff]
  constructor
  · rintro ⟨upper, hupper, hfind⟩
    have hbeq := List.find?_some hfind
    rw [hupper, eq_of_beq hbeq]
  · intro h
    exact ⟨level.name, h, hname level⟩

namespace Settings

/-! ### What values state -/

/-- The bound that a value states: the default if the variable is unset or empty, and otherwise the
positive number for which a row of digits stands. -/
inductive StatesBound : Option Text → Int → Prop
  | unset : StatesBound none Term.defaultBound
  | empty : StatesBound (some "") Term.defaultBound
  | number {text : Text} {digits : List (Fin 10)} (hrow : text.HoldsRow digits)
      (hpos : 0 < Text.numberOf digits) : StatesBound (some text) (Text.numberOf digits)

/-- The level that a value states: the default if the variable is unset or empty, and otherwise
the one whose name it is, in any case. -/
inductive StatesLevel : Option Text → LogLevel → Prop
  | unset : StatesLevel none .warning
  | empty : StatesLevel (some "") .warning
  | name {text : Text} {level : LogLevel}
      (hname : Text.basicUpper? (Text.strip text) = some level.name) : StatesLevel (some text) level

/-- A value holds a row of digits, but there is a separator among the blanks around it, or it
exceeds the limit. -/
def BreaksDown (value : Option Text) : Prop :=
  ∃ text digits, value = some text ∧ text.HoldsRow digits ∧
    ((∃ c ∈ text.toList, Text.isSeparator c = true) ∨ Text.digitLimit < digits.length)

section Rows

variable {text : Text} {digits : List (Fin 10)}

/-- A value that holds a row of digits states its number or nothing. -/
lemma statesBound_iff_of_row (h : text.HoldsRow digits) {n : Int} :
    StatesBound (some text) n ↔ 0 < Text.numberOf digits ∧ n = Text.numberOf digits := by
  constructor
  · intro hn
    cases hn with
    | empty => exact absurd rfl h.ne_empty
    | number hrow hpos =>
        rw [h.unique hrow]
        exact ⟨hpos, rfl⟩
  · rintro ⟨hpos, rfl⟩
    exact .number h hpos

lemma breaksDown_iff_of_row (h : text.HoldsRow digits) :
    BreaksDown (some text) ↔
      (∃ c ∈ text.toList, Text.isSeparator c = true) ∨ Text.digitLimit < digits.length := by
  constructor
  · rintro ⟨text', digits', ⟨⟩, hrow, hbad⟩
    rw [h.unique hrow]
    exact hbad
  · intro hbad
    exact ⟨text, digits, rfl, h, hbad⟩

end Rows

/-- The bound that a value states is determined. -/
lemma StatesBound.unique {value : Option Text} {n m : Int} (hn : StatesBound value n)
    (hm : StatesBound value m) : n = m := by
  cases hn with
  | unset =>
      cases hm
      rfl
  | empty =>
      cases hm with
      | empty => rfl
      | number hrow => exact absurd rfl hrow.ne_empty
  | number hrow hpos => exact ((statesBound_iff_of_row hrow).mp hm).2.symm

lemma StatesLevel.unique {value : Option Text} {l m : LogLevel} (hl : StatesLevel value l)
    (hm : StatesLevel value m) : l = m := by
  have hempty : ∀ level : LogLevel, Text.basicUpper? (Text.strip "") ≠ some level.name := by
    intro level
    cases level <;> decide
  cases hl with
  | unset =>
      cases hm
      rfl
  | empty =>
      cases hm with
      | empty => rfl
      | name hname => exact absurd hname (hempty _)
  | name hname =>
      cases hm with
      | empty => exact absurd hname (hempty _)
      | name hname' =>
          have hlevel := LogLevel.ofText?_eq_some.mpr hname
          rw [LogLevel.ofText?_eq_some.mpr hname'] at hlevel
          exact (Option.some.inj hlevel).symm

/-! ### The outcomes of reading -/

lemma nonempty?_some {text : Text} (h : text ≠ "") : nonempty? (some text) = some text := by
  have hne : text.isEmpty = false := by
    rw [Text.isEmpty, List.isEmpty_eq_false_iff]
    intro hnil
    exact h (congrArg Text.ofList hnil)
  simp [nonempty?, hne]

/-- The test without the blanks recognises the rows of digits. -/
lemma isPlainNumber_strip_iff {text : Text} :
    isPlainNumber (Text.strip text) = true ↔ ∃ digits, text.HoldsRow digits := by
  rw [isPlainNumber, Bool.and_eq_true, List.all_eq_true, Text.forall_isBasicDigit_iff, Text.isEmpty,
    Bool.not_eq_true', List.isEmpty_eq_false_iff]
  constructor
  · rintro ⟨hne, digits, hdigits⟩
    refine ⟨digits, ?_, congrArg Text.ofList hdigits⟩
    rintro rfl
    exact hne hdigits
  · rintro ⟨digits, hrow⟩
    rw [hrow.strip_eq]
    exact ⟨fun h => hrow.ne_nil (List.map_eq_nil_iff.mp h), digits, rfl⟩

lemma readSteps_of_no_row {text : Text} (hne : text ≠ "") (h : ¬ ∃ digits, text.HoldsRow digits) :
    readSteps (some text) = .error (.badSteps text) := by
  rw [readSteps, nonempty?_some hne]
  simp [mt isPlainNumber_strip_iff.mp h]

section Rows

variable {text : Text} {digits : List (Fin 10)}

/-- A row of digits is left to the reader of integers. -/
lemma readSteps_of_error (h : text.HoldsRow digits) {e : Text.NumeralError}
    (he : Text.readInt text = .error e) : readSteps (some text) = .error (.unreadableSteps e) := by
  rw [readSteps, nonempty?_some h.ne_empty]
  simp [isPlainNumber_strip_iff.mpr ⟨digits, h⟩, he]

lemma readSteps_of_ok (h : text.HoldsRow digits) {n : Int} (hn : Text.readInt text = .ok n) :
    readSteps (some text) = if 0 < n then .ok n else .error (.badSteps text) := by
  rw [readSteps, nonempty?_some h.ne_empty]
  simp [isPlainNumber_strip_iff.mpr ⟨digits, h⟩, hn]

end Rows

lemma exists_readSteps_of_breaksDown {value : Option Text} (h : BreaksDown value) :
    ∃ e, readSteps value = .error (.unreadableSteps e) := by
  obtain ⟨text, digits, rfl, hrow, hbad⟩ := h
  obtain ⟨e, he⟩ := hrow.exists_readInt_eq_error hbad
  exact ⟨e, readSteps_of_error hrow he⟩

/-- Short of a breakdown, reading the bound gives what the value states, or refuses a value that
states nothing. -/
lemma readSteps_cases {value : Option Text} (hbreaks : ¬ BreaksDown value) :
    (∃ n, StatesBound value n ∧ readSteps value = .ok n) ∨
      (¬ ∃ n, StatesBound value n) ∧
        ∃ text, value = some text ∧ readSteps value = .error (.badSteps text) := by
  cases value with
  | none => exact .inl ⟨_, .unset, rfl⟩
  | some text =>
      by_cases hrow : ∃ digits, text.HoldsRow digits
      · obtain ⟨digits, hrow⟩ := hrow
        obtain ⟨hclean, hlimit⟩ := not_or.mp (mt (breaksDown_iff_of_row hrow).mpr hbreaks)
        have hread := readSteps_of_ok hrow (hrow.readInt_of_clean hclean (Nat.le_of_not_lt hlimit))
        by_cases hpos : 0 < Text.numberOf digits
        · rw [if_pos (Int.natCast_pos.mpr hpos)] at hread
          exact .inl ⟨_, .number hrow hpos, hread⟩
        · rw [if_neg (mt Int.natCast_pos.mp hpos)] at hread
          refine .inr ⟨?_, text, rfl, hread⟩
          rintro ⟨n, hn⟩
          exact hpos ((statesBound_iff_of_row hrow).mp hn).1
      · by_cases hempty : text = ""
        · subst hempty
          exact .inl ⟨_, .empty, rfl⟩
        · refine .inr ⟨?_, text, rfl, readSteps_of_no_row hempty hrow⟩
          rintro ⟨n, hn⟩
          cases hn with
          | empty => exact hempty rfl
          | number h => exact hrow ⟨_, h⟩

/-- Reading the level gives what the value states, or refuses a value that states nothing. -/
lemma readLevel_cases (value : Option Text) :
    (∃ l, StatesLevel value l ∧ readLevel value = .ok l) ∨
      (¬ ∃ l, StatesLevel value l) ∧
        ∃ text, value = some text ∧ readLevel value = .error (.badLevel text) := by
  cases value with
  | none => exact .inl ⟨_, .unset, rfl⟩
  | some text =>
      by_cases hempty : text = ""
      · subst hempty
        exact .inl ⟨_, .empty, rfl⟩
      · have hvalue := nonempty?_some hempty
        cases hlevel : LogLevel.ofText? text with
        | some l =>
            refine .inl ⟨l, .name (LogLevel.ofText?_eq_some.mp hlevel), ?_⟩
            rw [readLevel, hvalue]
            simp [hlevel]
        | none =>
            refine .inr ⟨?_, text, rfl, ?_⟩
            · rintro ⟨l, hl⟩
              cases hl with
              | empty => exact hempty rfl
              | name hname =>
                  rw [LogLevel.ofText?_eq_some.mpr hname] at hlevel
                  cases hlevel
            · rw [readLevel, hvalue]
              simp [hlevel]

section Readers

variable {α : Type} {States : α → Prop} {value : Option Text} {refusal : Text → SettingsError}
  {outcome : Except SettingsError α}

/-- A reader that gives what is stated, or else refuses the value, succeeds with nothing else. -/
lemma eq_ok_iff_of_cases (hunique : ∀ a b, States a → States b → a = b)
    (h : (∃ a, States a ∧ outcome = .ok a) ∨
      (¬ ∃ a, States a) ∧ ∃ text, value = some text ∧ outcome = .error (refusal text)) {a : α} :
    outcome = .ok a ↔ States a := by
  rcases h with ⟨b, hb, rfl⟩ | ⟨hnone, text, -, rfl⟩
  · constructor
    · rintro ⟨⟩
      exact hb
    · intro ha
      rw [hunique a b ha hb]
  · constructor
    · rintro ⟨⟩
    · intro ha
      exact absurd ⟨a, ha⟩ hnone

/-- Such a reader refuses the values that state nothing, and no others. -/
lemma eq_error_iff_of_cases
    (h : (∃ a, States a ∧ outcome = .ok a) ∨
      (¬ ∃ a, States a) ∧ ∃ text, value = some text ∧ outcome = .error (refusal text))
    {e : SettingsError} :
    outcome = .error e ↔ ∃ text, value = some text ∧ e = refusal text ∧ ¬ ∃ a, States a := by
  rcases h with ⟨a, ha, rfl⟩ | ⟨hnone, text, rfl, rfl⟩
  · constructor
    · rintro ⟨⟩
    · rintro ⟨-, -, -, hnone⟩
      exact absurd ⟨a, ha⟩ hnone
  · constructor
    · rintro ⟨⟩
      exact ⟨text, rfl, rfl, hnone⟩
    · rintro ⟨_, ⟨⟩, rfl, -⟩
      rfl

lemma readSteps_eq_ok (h : ¬ BreaksDown value) {n : Int} :
    readSteps value = .ok n ↔ StatesBound value n :=
  eq_ok_iff_of_cases (fun _ _ => StatesBound.unique) (readSteps_cases h)

lemma readSteps_eq_error (h : ¬ BreaksDown value) {e : SettingsError} :
    readSteps value = .error e ↔
      ∃ text, value = some text ∧ e = .badSteps text ∧ ¬ ∃ n, StatesBound value n :=
  eq_error_iff_of_cases (readSteps_cases h)

lemma readLevel_eq_ok {l : LogLevel} : readLevel value = .ok l ↔ StatesLevel value l :=
  eq_ok_iff_of_cases (fun _ _ => StatesLevel.unique) (readLevel_cases value)

lemma readLevel_eq_error {e : SettingsError} :
    readLevel value = .error e ↔
      ∃ text, value = some text ∧ e = .badLevel text ∧ ¬ ∃ l, StatesLevel value l :=
  eq_error_iff_of_cases (readLevel_cases value)

end Readers

section Environments

variable {steps level : Option Text}

lemma read_eq_ok {s : Settings} :
    read steps level = .ok s ↔
      readSteps steps = .ok s.maxSteps ∧ readLevel level = .ok s.logLevel := by
  cases s
  cases hsteps : readSteps steps <;> cases hlevel : readLevel level <;>
    simp [read, hsteps, hlevel, bind, Except.bind, pure, Except.pure]

/-- The bound is read first, so its error is the one that is seen. -/
lemma read_eq_error {e : SettingsError} :
    read steps level = .error e ↔
      readSteps steps = .error e ∨ (∃ n, readSteps steps = .ok n) ∧ readLevel level = .error e := by
  cases hsteps : readSteps steps <;> cases hlevel : readLevel level <;>
    simp [read, hsteps, hlevel, bind, Except.bind, pure, Except.pure]

end Environments

/-! ### Verdicts -/

/-- **Which environments give settings**: reading breaks down exactly at a bound that is a row of
digits with a separator among the blanks around it, or with more digits than are allowed. At every
other value of the bound, and at every value of the level, there are settings or a verdict. The
settings are what the two values state. A bound is refused exactly if its value states none; and a
level, if the bound is stated and the level is not. -/
theorem read_verdicts (steps level : Option Text) :
    ((∃ e, read steps level = .error e ∧ e.isVerdict = false) ↔ BreaksDown steps) ∧
      (¬ BreaksDown steps →
        (∀ s, read steps level = .ok s ↔
          StatesBound steps s.maxSteps ∧ StatesLevel level s.logLevel) ∧
        (∀ text, read steps level = .error (.badSteps text) ↔
          steps = some text ∧ ¬ ∃ n, StatesBound steps n) ∧
        ∀ text, read steps level = .error (.badLevel text) ↔
          level = some text ∧ (∃ n, StatesBound steps n) ∧ ¬ ∃ l, StatesLevel level l) := by
  constructor
  · constructor
    · rintro ⟨e, hread, hverdict⟩
      by_contra hbreaks
      rcases read_eq_error.mp hread with hsteps | ⟨-, hlevel⟩
      · obtain ⟨text, -, rfl, -⟩ := (readSteps_eq_error hbreaks).mp hsteps
        cases hverdict
      · obtain ⟨text, -, rfl, -⟩ := readLevel_eq_error.mp hlevel
        cases hverdict
    · intro hbreaks
      obtain ⟨e, hsteps⟩ := exists_readSteps_of_breaksDown hbreaks
      exact ⟨_, read_eq_error.mpr (.inl hsteps), rfl⟩
  · intro hbreaks
    refine ⟨fun s => ?_, fun text => ?_, fun text => ?_⟩
    · rw [read_eq_ok, readSteps_eq_ok hbreaks, readLevel_eq_ok]
    · simp [read_eq_error, readSteps_eq_error hbreaks, readLevel_eq_error]
    · simp [read_eq_error, readSteps_eq_error hbreaks, readSteps_eq_ok hbreaks, readLevel_eq_error,
        and_left_comm]

/-- Zeros in front of the number, and blanks of any other kind around it, do no harm; nor does a
separator at the level. -/
theorem read_verdicts_padded :
    let steps : Text := .ofList (['\u2003', '0', '0', '7', '\n'].map .char)
    let level : Text := .ofList (['\x1c', 'd', 'e', 'b', 'u', 'g'].map .char)
    ¬ BreaksDown (some steps) ∧ StatesBound (some steps) 7 ∧ StatesLevel (some level) .debug ∧
      read (some steps) (some level) = .ok { maxSteps := 7, logLevel := .debug } := by
  intro steps level
  have hrow : steps.HoldsRow [0, 0, 7] := ⟨by decide, by decide⟩
  have hbreaks : ¬ BreaksDown (some steps) := by
    rw [breaksDown_iff_of_row hrow]
    decide
  have hsteps : StatesBound (some steps) 7 := .number hrow (by decide)
  have hlevel : StatesLevel (some level) .debug := .name (by decide)
  exact ⟨hbreaks, hsteps, hlevel,
    (((read_verdicts (some steps) (some level)).2 hbreaks).1 _).mpr ⟨hsteps, hlevel⟩⟩

/-- Two values that state the bound `7` get neither settings nor a verdict: one with a separator in
front of the digit, and one with so many zeros in front of it that the limit is exceeded. -/
theorem stated_bound_without_verdict :
    let separated : Text := .ofList (['\x1f', '7'].map .char)
    let padded : Text := .ofDigits (List.replicate 4300 0 ++ [7])
    (StatesBound (some separated) 7 ∧
        read (some separated) none = .error (.unreadableSteps (.malformed separated))) ∧
      StatesBound (some padded) 7 ∧
        read (some padded) none = .error (.unreadableSteps (.tooLong 4301)) := by
  have hseparated : Text.HoldsRow (.ofList (['\x1f', '7'].map .char)) [7] := ⟨by decide, by decide⟩
  have hpadded : Text.HoldsRow (.ofDigits (List.replicate 4300 0 ++ [7]))
      (List.replicate 4300 0 ++ [7]) :=
    Text.holdsRow_ofDigits (List.append_ne_nil_of_right_ne_nil _ (by decide))
  have hnumber : Text.numberOf (List.replicate 4300 0 ++ [7]) = 7 :=
    Text.numberOf_zeros_append 4300 [7]
  have hlength : (List.replicate 4300 (0 : Fin 10) ++ [7]).length = 4301 := by
    rw [List.length_append, List.length_replicate, List.length_singleton]
  have hlong :
      Text.readInt (.ofDigits (List.replicate 4300 0 ++ [7])) = .error (.tooLong 4301) := by
    rw [Text.readInt_ofDigits_of_long (by rw [hlength]; decide), hlength]
  refine ⟨⟨.number hseparated (by decide), by decide⟩, ?_, ?_⟩
  · have hstated := StatesBound.number hpadded (by rw [hnumber]; decide)
    rwa [hnumber] at hstated
  · rw [read, readSteps_of_error hpadded hlong]
    rfl

end Settings

end TreeCalculus
