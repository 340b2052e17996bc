import TreeCalculus.Text.Basic

/-!
Cutting a text at a separator.

`splitAt sep` cuts at every occurrence, so that `n` separators give `n + 1` parts, some of which may
be empty; the empty text has the one empty part.
-/

namespace TreeCalculus.Text

/-- Put a code point in front of the first part. -/
def consFirst (c : CodePoint) : List (List CodePoint) → List (List CodePoint)
  | [] => [[c]]
  | part :: parts => (c :: part) :: parts

/-- The parts of a list between the occurrences of `sep`. -/
def splitPoints (sep : CodePoint) : List CodePoint → List (List CodePoint)
  | [] => [[]]
  | c :: cs => if c = sep then [] :: splitPoints sep cs else consFirst c (splitPoints sep cs)

/-- The parts of a text between the occurrences of `sep`. -/
def splitAt (sep : CodePoint) (t : Text) : List Text := (splitPoints sep t.toList).map .ofList

end TreeCalculus.Text
