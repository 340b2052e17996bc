import Mathlib.Data.List.Nodup
import Mathlib.Tactic.Lemma
import Mathlib.Tactic.SplitIfs
import TreeCalculus.Json.Printer
import TreeCalculus.Json.Reader
import TreeCalculus.Proofs.Tables

/-!
Written JSON text is read back.

A string is written code point by code point, and the reader finds for each of them one part that
stands for it, whatever follows. A value is read back in the middle of any text, since the reader
knows the end of a value that is no number from the value itself. So both directions are compared
value by value, and the fuel of the reader is measured by the length of the text.

* `readString_flatMap_escaped`: strings.
* `Value.Plain`: the values without numbers and without repeated keys.
* `Value.Plain.readsBack`, `parse_render`: values inside a text, and whole texts.
-/

namespace TreeCalculus

/-- A code point is determined by its number. -/
lemma CodePoint.ofNat_toNat (c : CodePoint) : CodePoint.ofNat c.toNat = c := by
  cases c with
  | char c =>
      have hvalid : c.toNat < 0xd800 ∨ 0xdfff < c.toNat ∧ c.toNat < 0x110000 := c.valid
      have hchar : ¬ (firstHalf ≤ c.toNat ∧ c.toNat - firstHalf < 0x800) := by
        rw [firstHalf]
        omega
      rw [toNat, ofNat, dif_neg hchar, Char.ofNat_toNat]
  | half n =>
      have hhalf : firstHalf ≤ firstHalf + n.val ∧ firstHalf + n.val - firstHalf < 0x800 := by
        omega
      rw [toNat, ofNat, dif_pos hhalf]
      exact congrArg half (Fin.ext (Nat.add_sub_cancel_left ..))

namespace Json

/-! ### Strings -/

lemma hexValue?_hexDigit : ∀ d < 16, hexValue? (.char (Text.hexDigit d)) = some d := by
  decide

/-- The four hexadecimal digits of a number give the number back. -/
lemma hexUnit?_hexDigits {n : Nat} (h : n < 0x10000) :
    ∃ a b c d, Text.hexDigits 4 n = [a, b, c, d] ∧
      hexUnit? (.char a) (.char b) (.char c) (.char d) = some n := by
  refine ⟨_, _, _, _, rfl, ?_⟩
  have hdigit (m : Nat) := hexValue?_hexDigit (m % 16) (Nat.mod_lt m (by decide))
  have hsum : ((n / 16 / 16 / 16 % 16 * 16 + n / 16 / 16 % 16) * 16 + n / 16 % 16) * 16 +
      n % 16 = n := by
    omega
  rw [hexUnit?, hdigit, hdigit, hdigit, hdigit]
  exact congrArg some hsum

/-- A part of a string stands for a code point, whatever follows it. -/
def Piece.StandsFor (piece : Piece) (c : CodePoint) : Prop :=
  ∀ pieces, joinPieces none (piece :: pieces) = c :: joinPieces none pieces

lemma Piece.StandsFor.plain (c : CodePoint) : (Piece.plain c).StandsFor c := by
  intro pieces
  rw [joinPieces]

lemma Piece.StandsFor.unit {c : CodePoint} (h : c.toNat < 0x20) :
    (Piece.unit c.toNat).StandsFor c := by
  intro pieces
  have hhigh : isHighSurrogate c.toNat = false := by
    simp only [isHighSurrogate, Bool.and_eq_false_iff, decide_eq_false_iff_not]
    omega
  rw [joinPieces, hhigh, CodePoint.ofNat_toNat]
  rfl

section

variable {opened more : List CodePoint}

lemma readPieces_letter {e : CodePoint} {c : Char} (he : escapeValue? e = some c) :
    readPieces opened (.char '\\' :: e :: more) =
      (readPieces opened more).map fun read => (.plain c :: read.1, read.2) := by
  have hu : e ≠ .char 'u' := by
    rintro rfl
    cases he
  rw [readPieces]
  simp only [he]
  · exact fun _ _ _ _ _ heq _ => hu heq
  · exact hu

lemma readPieces_unit {n : Nat} (hn : n < 0x10000) (hmore : more ≠ []) :
    readPieces opened ((['\\', 'u'] ++ Text.hexDigits 4 n).map .char ++ more) =
      (readPieces opened more).map fun read => (.unit n :: read.1, read.2) := by
  obtain ⟨a, b, c, d, hdigits, hunit⟩ := hexUnit?_hexDigits hn
  have hmore' : more.isEmpty = false := by simpa using hmore
  simp only [hdigits, List.cons_append, List.nil_append, List.map_cons, List.map_nil]
  rw [readPieces]
  simp only [hunit, hmore']

lemma readPieces_plain {c : CodePoint} (hquote : c ≠ .char '"') (hback : c ≠ .char '\\')
    (hcontrol : ¬ c.toNat < 0x20) :
    readPieces opened (c :: more) =
      (readPieces opened more).map fun read => (.plain c :: read.1, read.2) := by
  rw [readPieces, if_neg hcontrol]
  · exact hquote
  · exact hback

/-- What is written for a code point is read as a part that stands for it. -/
lemma readPieces_escaped (opened : List CodePoint) (c : CodePoint) (hmore : more ≠ []) :
    ∃ piece : Piece, piece.StandsFor c ∧ readPieces opened (escaped c ++ more) =
      (readPieces opened more).map fun read => (piece :: read.1, read.2) := by
  have hletter {e : CodePoint} {x : Char} (he : escapeValue? e = some x) (hc : c = .char x) :
      ∃ piece : Piece, piece.StandsFor c ∧ readPieces opened ([.char '\\', e] ++ more) =
        (readPieces opened more).map fun read => (piece :: read.1, read.2) :=
    ⟨.plain c, .plain c, hc ▸ readPieces_letter he⟩
  rw [escaped]
  split_ifs with hquote hback hfeed hreturn htab hform hbell hcontrol
  · exact hletter rfl hquote
  · exact hletter rfl hback
  · exact hletter rfl hfeed
  · exact hletter rfl hreturn
  · exact hletter rfl htab
  · exact hletter rfl hform
  · exact hletter rfl hbell
  · exact ⟨.unit c.toNat, .unit hcontrol, readPieces_unit (by omega) hmore⟩
  · exact ⟨.plain c, .plain c, readPieces_plain hquote hback hcontrol⟩

end

lemma readPieces_flatMap_escaped (opened rest cs : List CodePoint) :
    ∃ pieces, readPieces opened (cs.flatMap escaped ++ .char '"' :: rest) = .ok (pieces, rest) ∧
      joinPieces none pieces = cs := by
  induction cs with
  | nil => exact ⟨[], by rw [List.flatMap_nil, List.nil_append, readPieces], by rw [joinPieces]⟩
  | cons c cs ih =>
      obtain ⟨pieces, hread, hjoin⟩ := ih
      -- the closing quote stands behind every code point, as an escape by number requires
      have hmore : cs.flatMap escaped ++ .char '"' :: rest ≠ [] := by simp
      obtain ⟨piece, hc, hpiece⟩ := readPieces_escaped opened c hmore
      refine ⟨piece :: pieces, ?_, by rw [hc, hjoin]⟩
      rw [List.flatMap_cons, List.append_assoc, hpiece, hread]
      rfl

/-- A written string is read back. -/
lemma readString_flatMap_escaped (s : Text) (opened rest : List CodePoint) :
    readString opened (s.toList.flatMap escaped ++ .char '"' :: rest) = .ok (s, rest) := by
  obtain ⟨pieces, hread, hjoin⟩ := readPieces_flatMap_escaped opened rest s.toList
  rw [readString, hread, Except.map, hjoin]

/-! ### White space -/

/-- White space at the beginning of a line is skipped. -/
lemma skipSpace_newline (depth : Nat) (cs : List CodePoint) :
    skipSpace (newline depth ++ cs) = skipSpace cs := by
  refine List.dropWhile_append_of_pos fun c hc => ?_
  rcases List.mem_cons.mp hc with rfl | hc
  · decide
  · rw [List.eq_of_mem_replicate hc]
    decide

/-- What is not white space is not skipped. -/
lemma skipSpace_cons {c : CodePoint} (h : isSpace c = false) (cs : List CodePoint) :
    skipSpace (c :: cs) = c :: cs := by
  rw [skipSpace, List.dropWhile_cons_of_neg (by simp [h])]

lemma skipSpace_stringPoints (s : Text) (cs : List CodePoint) :
    skipSpace (stringPoints s ++ cs) = stringPoints s ++ cs :=
  skipSpace_cons (c := .char '"') rfl _

/-! ### Values -/

/-- Values without numbers in which no object repeats a key. -/
inductive Value.Plain : Value → Prop where
  | null : Plain .null
  | bool (b : Bool) : Plain (.bool b)
  | str (s : Text) : Plain (.str s)
  | arr {items : List Value} : (∀ v ∈ items, Plain v) → Plain (.arr items)
  | obj {fields : List (Text × Value)} : (fields.map Prod.fst).Nodup →
      (∀ member ∈ fields, Plain member.2) → Plain (.obj fields)

/-- The code points with which the texts of these values begin. -/
def beginnings : List CodePoint :=
  [.char 'n', .char 't', .char 'f', .char '"', .char '[', .char '\x7b']

lemma of_mem_beginnings : ∀ c ∈ beginnings,
    isSpace c = false ∧ c ≠ .char ']' ∧ c ≠ .char byteOrderMark := by
  decide

lemma Value.Plain.head {v : Value} (hv : v.Plain) (depth : Nat) :
    ∃ c ∈ beginnings, ∃ cs, valuePoints depth v = c :: cs := by
  cases hv with
  | null => exact ⟨.char 'n', by decide, _, by rw [valuePoints]⟩
  | bool b =>
      cases b with
      | true => exact ⟨.char 't', by decide, _, by rw [valuePoints]⟩
      | false => exact ⟨.char 'f', by decide, _, by rw [valuePoints]⟩
  | str s => exact ⟨.char '"', by decide, _, by rw [valuePoints]; rfl⟩
  | @arr items _ =>
      refine ⟨.char '[', by decide, ?_⟩
      cases items with
      | nil => exact ⟨_, by rw [valuePoints]⟩
      | cons v vs => exact ⟨_, by rw [valuePoints]; simp only [List.cons_append]; rfl⟩
  | @obj fields _ _ =>
      refine ⟨.char '\x7b', by decide, ?_⟩
      cases fields with
      | nil => exact ⟨_, by rw [valuePoints]⟩
      | cons m ms => exact ⟨_, by rw [valuePoints]; simp only [List.cons_append]; rfl⟩

lemma Value.Plain.skipSpace_valuePoints {v : Value} (hv : v.Plain) (depth : Nat)
    (cs : List CodePoint) : skipSpace (valuePoints depth v ++ cs) = valuePoints depth v ++ cs := by
  obtain ⟨c, hc, cs', hcs⟩ := hv.head depth
  rw [hcs, List.cons_append, skipSpace_cons (of_mem_beginnings c hc).1]

/-- A value is read back from its text, with enough fuel, whatever stands behind it. -/
def Value.ReadsBack (v : Value) : Prop :=
  ∀ depth fuel rest, 2 * (valuePoints depth v).length ≤ fuel →
    readValue fuel (valuePoints depth v ++ rest) = .ok (v, rest)

/-- The items of a list are read back, up to the closing bracket. -/
lemma readItems_itemsPoints {v : Value} {vs : List Value} (hplain : ∀ w ∈ v :: vs, w.Plain)
    (hread : ∀ w ∈ v :: vs, w.ReadsBack) (depth fuel : Nat) (rest : List CodePoint)
    (hfuel : 2 * ((valuePoints (depth + 1) v).length +
      (itemsPoints (depth + 1) vs).length + 1) ≤ fuel) :
    readItems fuel (valuePoints (depth + 1) v ++ (itemsPoints (depth + 1) vs ++
      (newline depth ++ .char ']' :: rest))) = .ok (v :: vs, rest) := by
  induction vs generalizing v fuel with
  | nil =>
      obtain _ | fuel := fuel
      · omega
      · rw [readItems, hread v List.mem_cons_self _ fuel _ (by omega), itemsPoints, List.nil_append]
        simp only [skipSpace_newline, skipSpace_cons (c := .char ']') rfl]
  | cons w ws ih =>
      have hlength : (valuePoints (depth + 1) w).length + (itemsPoints (depth + 1) ws).length + 1 ≤
          (itemsPoints (depth + 1) (w :: ws)).length := by
        rw [itemsPoints]
        simp only [List.length_append, List.length_cons, List.length_nil]
        omega
      obtain _ | fuel := fuel
      · omega
      · rw [readItems, hread v List.mem_cons_self _ fuel _ (by omega), itemsPoints]
        simp only [List.append_assoc, List.cons_append, List.nil_append,
          skipSpace_cons (c := .char ',') rfl, skipSpace_newline,
          (hplain w (by simp)).skipSpace_valuePoints]
        rw [ih (fun u hu => hplain u (List.mem_cons_of_mem v hu))
          (fun u hu => hread u (List.mem_cons_of_mem v hu)) fuel (by omega)]
        rfl

/-- One member is read back; a brace behind it ends the object, and a comma leads on. -/
lemma readMembers_member {v : Value} (hplain : v.Plain) (hread : v.ReadsBack) {depth fuel : Nat}
    (hfuel : 2 * (valuePoints depth v).length ≤ fuel) (key : Text) (done : List (Text × Value))
    {cs rest : List CodePoint} :
    (skipSpace cs = .char '\x7d' :: rest →
      readMembers (fuel + 1) done
          (stringPoints key ++ (.char ':' :: .char ' ' :: (valuePoints depth v ++ cs))) =
        .ok (Table.insertEntry key v done, rest)) ∧
    (skipSpace cs = .char ',' :: rest →
      readMembers (fuel + 1) done
          (stringPoints key ++ (.char ':' :: .char ' ' :: (valuePoints depth v ++ cs))) =
        readMembers fuel (Table.insertEntry key v done) (skipSpace rest)) := by
  have hblank (cs : List CodePoint) : skipSpace (.char ' ' :: cs) = skipSpace cs :=
    List.dropWhile_cons_of_pos rfl
  rw [stringPoints]
  simp only [List.append_assoc, List.cons_append, List.nil_append]
  rw [readMembers, readString_flatMap_escaped]
  simp only [skipSpace_cons (c := .char ':') rfl, hblank, hplain.skipSpace_valuePoints,
    hread depth fuel cs hfuel]
  exact ⟨fun hend => by simp only [hend], fun hnext => by simp only [hnext]⟩

/-- The members of an object are read back, up to the closing brace, behind the members `done`. -/
lemma readMembers_membersPoints {key : Text} {v : Value} {ms : List (Text × Value)}
    (done : List (Text × Value)) (hkeys : ((done ++ (key, v) :: ms).map Prod.fst).Nodup)
    (hplain : ∀ m ∈ (key, v) :: ms, m.2.Plain) (hread : ∀ m ∈ (key, v) :: ms, m.2.ReadsBack)
    (depth fuel : Nat) (rest : List CodePoint)
    (hfuel : 2 * ((valuePoints (depth + 1) v).length +
      (membersPoints (depth + 1) ms).length + 1) ≤ fuel) :
    readMembers fuel done (stringPoints key ++ (.char ':' :: .char ' ' ::
      (valuePoints (depth + 1) v ++ (membersPoints (depth + 1) ms ++
        (newline depth ++ .char '\x7d' :: rest))))) = .ok (done ++ (key, v) :: ms, rest) := by
  have hvalue : v.Plain ∧ v.ReadsBack :=
    ⟨hplain (key, v) List.mem_cons_self, hread (key, v) List.mem_cons_self⟩
  induction ms generalizing key v done fuel with
  | nil =>
      obtain _ | fuel := fuel
      · omega
      · have hend : skipSpace (newline depth ++ .char '\x7d' :: rest) = .char '\x7d' :: rest := by
          rw [skipSpace_newline, skipSpace_cons rfl]
        rw [membersPoints, List.nil_append,
          (readMembers_member hvalue.1 hvalue.2 (by omega) key done).1 hend,
          Table.insertEntry_of_nodup hkeys]
  | cons m ms ih =>
      obtain ⟨key', w⟩ := m
      have hlength :
          (valuePoints (depth + 1) w).length + (membersPoints (depth + 1) ms).length + 1 ≤
          (membersPoints (depth + 1) ((key', w) :: ms)).length := by
        rw [membersPoints]
        simp only [List.length_append, List.length_cons, List.length_nil]
        omega
      have hkeys' : (((done ++ [(key, v)]) ++ (key', w) :: ms).map Prod.fst).Nodup := by
        rwa [List.append_assoc, List.singleton_append]
      have hplain' : ∀ m ∈ (key', w) :: ms, m.2.Plain :=
        fun m hm => hplain m (List.mem_cons_of_mem (key, v) hm)
      have hread' : ∀ m ∈ (key', w) :: ms, m.2.ReadsBack :=
        fun m hm => hread m (List.mem_cons_of_mem (key, v) hm)
      obtain _ | fuel := fuel
      · omega
      · rw [membersPoints]
        simp only [List.append_assoc, List.cons_append, List.nil_append]
        rw [(readMembers_member hvalue.1 hvalue.2 (by omega) key done).2 (skipSpace_cons rfl _),
          skipSpace_newline, skipSpace_stringPoints, Table.insertEntry_of_nodup hkeys]
        rw [ih _ hkeys' hplain' hread' fuel (by omega)
          ⟨hplain' _ List.mem_cons_self, hread' _ List.mem_cons_self⟩, List.append_assoc,
          List.singleton_append]

/-- A list that does not close at once is read item by item. -/
lemma readValue_list {c : CodePoint} {rest cs : List CodePoint} (h : skipSpace rest = c :: cs)
    (hc : c ≠ .char ']') (fuel : Nat) :
    readValue (fuel + 1) (.char '[' :: rest) =
      (readItems fuel (c :: cs)).map fun read => (.arr read.1, read.2) := by
  rw [readValue, h]
  split
  · next heq => exact absurd (List.cons.inj heq).1 hc
  · rfl

/-- An object that does not close at once is read member by member. -/
lemma readValue_object {c : CodePoint} {rest cs : List CodePoint} (h : skipSpace rest = c :: cs)
    (hc : c ≠ .char '\x7d') (fuel : Nat) :
    readValue (fuel + 1) (.char '\x7b' :: rest) =
      (readMembers fuel [] (c :: cs)).map fun read => (.obj read.1, read.2) := by
  rw [readValue, h]
  split
  · next heq => exact absurd (List.cons.inj heq).1 hc
  · rfl

/-- **Values are read back** from their texts in the middle of any text. -/
theorem Value.Plain.readsBack {v : Value} (hv : v.Plain) : v.ReadsBack := by
  induction hv with
  | null =>
      rintro depth (_ | fuel) rest hfuel
      · exact absurd hfuel (by simp [valuePoints])
      · rw [valuePoints]
        rfl
  | bool b =>
      rintro depth (_ | fuel) rest hfuel
      · cases b <;> exact absurd hfuel (by simp [valuePoints])
      · cases b <;> (rw [valuePoints]; rfl)
  | str s =>
      rintro depth (_ | fuel) rest hfuel
      · exact absurd hfuel (by simp [valuePoints, stringPoints])
      · rw [valuePoints, stringPoints]
        simp only [List.append_assoc, List.cons_append, List.nil_append]
        rw [readValue, readString_flatMap_escaped]
        rfl
  | @arr items hplain ih =>
      rintro depth (_ | fuel) rest hfuel
      · cases items <;> exact absurd hfuel (by simp [valuePoints])
      · cases items with
        | nil =>
            rw [valuePoints]
            rfl
        | cons v vs =>
            rw [valuePoints] at hfuel ⊢
            simp only [List.length_append, List.length_cons, List.length_nil] at hfuel
            obtain ⟨c, hc, cs, hcs⟩ := (hplain v List.mem_cons_self).head (depth + 1)
            obtain ⟨hspace, hclose, -⟩ := of_mem_beginnings c hc
            have hitems := readItems_itemsPoints hplain ih depth fuel rest (by omega)
            simp only [List.append_assoc, List.cons_append, List.nil_append]
            rw [hcs, List.cons_append] at hitems ⊢
            rw [readValue_list (by rw [skipSpace_newline, skipSpace_cons hspace]) hclose, hitems]
            rfl
  | @obj fields hkeys hplain ih =>
      rintro depth (_ | fuel) rest hfuel
      · cases fields <;> exact absurd hfuel (by simp [valuePoints])
      · cases fields with
        | nil =>
            rw [valuePoints]
            rfl
        | cons m ms =>
            rw [valuePoints] at hfuel ⊢
            simp only [List.length_append, List.length_cons, List.length_nil] at hfuel
            have hmembers := readMembers_membersPoints [] hkeys hplain ih depth fuel rest (by omega)
            simp only [List.append_assoc, List.cons_append, List.nil_append]
            rw [readValue_object (by rw [skipSpace_newline, skipSpace_stringPoints]; rfl)
              (by decide)]
            exact congrArg (Except.map fun read => (Value.obj read.1, read.2)) hmembers

/-- **A written text is read back**: the text of a value without numbers and repeated keys is read
as that value. -/
theorem parse_render {v : Value} (hv : v.Plain) : parse (render v) = .ok v := by
  obtain ⟨c, hc, cs, hcs⟩ := hv.head 0
  have hmark : (valuePoints 0 v).head? ≠ some (.char byteOrderMark) := by
    rw [hcs, List.head?_cons, Ne, Option.some.injEq]
    exact (of_mem_beginnings c hc).2.2
  have hskip := hv.skipSpace_valuePoints 0 []
  have hread := hv.readsBack 0 (2 * (valuePoints 0 v).length + 2) [] (by omega)
  rw [List.append_nil] at hskip hread
  rw [parse, render]
  simp only [if_neg hmark, readText, hskip, hread]
  rfl

end Json

end TreeCalculus
