import TreeCalculus.Text.Basic

/-!
Capital letters within the basic alphabet.

Words that are compared without regard to case are put into capitals first. Here only such capital
forms matter as consist of the letters `A` to `Z`; a few letters outside the basic alphabet have
one, the ligatures among them.

* `basicCapitals`: those letters and their capital forms.
* `basicCapital?`: the capital form of a character, if it is basic.
* `basicUpper?`: the same for a text.
-/

namespace TreeCalculus.Text

/-- The characters outside the basic ones whose capital form is basic. -/
def basicCapitals : List (Char × List Char) :=
  [('ß', ['S', 'S']), ('ı', ['I']), ('ſ', ['S']), ('ﬀ', ['F', 'F']), ('ﬁ', ['F', 'I']),
   ('ﬂ', ['F', 'L']), ('ﬃ', ['F', 'F', 'I']), ('ﬄ', ['F', 'F', 'L']), ('ﬅ', ['S', 'T']),
   ('ﬆ', ['S', 'T'])]

/-- The capital form of a code point, if it consists of basic characters. -/
def basicCapital? : CodePoint → Option (List Char)
  | .char c => if c.toNat < 0x80 then some [c.toUpper] else basicCapitals.lookup c
  | .half _ => none

/-- The capital form of a text, if it consists of basic characters. -/
def basicUpper? (t : Text) : Option Text :=
  (t.toList.mapM basicCapital?).map fun parts => .ofList (parts.flatten.map .char)

end TreeCalculus.Text
