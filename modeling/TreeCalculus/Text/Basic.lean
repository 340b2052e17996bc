/-!
Text as a sequence of code points.

A code point is a character or one half of a surrogate pair that stands alone. Such halves can be
written in JSON, and names that differ only in them are different names, so the texts of the library
can hold them.

* `CodePoint`, `CodePoint.toNat`, `CodePoint.ofNat`: the code points and their numbers.
* `Text`: the texts; a string stands for the text of its characters.
* `Text.join`, `Text.intercalate`: several texts one after the other.
* `Text.le`: the order by code points.
-/

namespace TreeCalculus

/-- A character, or half of a surrogate pair that stands alone. -/
inductive CodePoint where
  | char (c : Char)
  /-- The half number `n`, counted from `firstHalf`. -/
  | half (n : Fin 0x800)
  deriving DecidableEq, Inhabited

namespace CodePoint

/-- A character as a code point. -/
instance : Coe Char CodePoint := ⟨char⟩

/-- The number of the first half. -/
def firstHalf : Nat := 0xd800

/-- The number of a code point. -/
def toNat : CodePoint → Nat
  | char c => c.toNat
  | half n => firstHalf + n

/-- The code point with a number. -/
def ofNat (n : Nat) : CodePoint :=
  if h : firstHalf ≤ n ∧ n - firstHalf < 0x800 then half ⟨n - firstHalf, h.2⟩
  else char (Char.ofNat n)

end CodePoint

/-- A sequence of code points. -/
structure Text where
  ofList ::
  toList : List CodePoint
  deriving DecidableEq, Inhabited

namespace Text

/-- The text of a string. -/
def ofString (s : String) : Text := .ofList (s.toList.map .char)

/-- A string as a text. -/
instance : Coe String Text := ⟨ofString⟩

/-- One text behind another. -/
def append (a b : Text) : Text := .ofList (a.toList ++ b.toList)

/-- Texts are joined like strings. -/
instance : Append Text := ⟨append⟩

/-- Different strings are different texts. -/
theorem ofString_inj {s t : String} : ofString s = ofString t ↔ s = t := by
  constructor
  · intro h
    injection h with h
    exact String.toList_inj.1 ((List.map_inj_right fun _ _ hc => CodePoint.char.inj hc).1 h)
  · rintro rfl
    rfl

/-- The code points of a text behind another. -/
@[simp] theorem toList_append (a b : Text) : (a ++ b).toList = a.toList ++ b.toList := rfl

/-- Whether a text has no code point. -/
def isEmpty (t : Text) : Bool := t.toList.isEmpty

/-- Whether a text begins with another. -/
def beginsWith (t start : Text) : Bool := start.toList.isPrefixOf t.toList

/-- Texts one after the other. -/
def join (ts : List Text) : Text := .ofList (ts.flatMap toList)

/-- Texts one after the other, with a separator between them. -/
def intercalate (sep : Text) (ts : List Text) : Text :=
  .ofList (List.intercalate sep.toList (ts.map toList))

/-- A character a number of times. -/
def replicate (count : Nat) (c : Char) : Text := .ofList (List.replicate count (.char c))

/-- Whether a text does not come after another in the order of code points. -/
def le (a b : Text) : Bool :=
  !(b.toList.map CodePoint.toNat).lex (a.toList.map CodePoint.toNat) Nat.blt

end Text

end TreeCalculus
