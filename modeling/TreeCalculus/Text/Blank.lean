import TreeCalculus.Text.Basic

/-!
White space.

`isBlank` decides whether a character is white space: the controls that move the cursor, the
separators among the controls, and the spaces and separators of the other scripts. A zero-width
space is no blank. `strip` removes the blanks around a text.
-/

namespace TreeCalculus.Text

/-- The closed ranges of code points that are white space. -/
def blankRanges : List (Nat × Nat) :=
  [(0x9, 0xd), (0x1c, 0x20), (0x85, 0x85), (0xa0, 0xa0), (0x1680, 0x1680), (0x2000, 0x200a),
   (0x2028, 0x2029), (0x202f, 0x202f), (0x205f, 0x205f), (0x3000, 0x3000)]

/-- Whether a code point is white space. -/
def isBlank (c : CodePoint) : Bool :=
  blankRanges.any fun range => range.1 ≤ c.toNat && c.toNat ≤ range.2

/-- The text without the blanks at both ends. -/
def strip (t : Text) : Text :=
  .ofList ((t.toList.dropWhile isBlank).reverse.dropWhile isBlank).reverse

end TreeCalculus.Text
