/-!
Filling lines with words.

Words are put on a line as long as they fit, with one space between them. A word that is longer than
a whole line begins on the current line and is cut wherever a line is full.

* `cutWord`: a word cut into pieces of a given length.
* `fill`: the lines of a list of words.
-/

namespace TreeCalculus.Text

/-- Cut a word into pieces of `width` characters, the last of which may be shorter. The fuel bounds
the number of pieces. -/
def cutWord (width : Nat) : (fuel : Nat) → List Char → List (List Char)
  | 0, word => [word]
  | fuel + 1, word =>
      if word.length ≤ width then [word]
      else word.take width :: cutWord width fuel (word.drop width)

/-- The line so far together with the words to come, as lines of at most `width` characters. -/
def fillFrom (width : Nat) : (line : List Char) → (words : List (List Char)) → List (List Char)
  | line, [] => [line]
  | line, word :: rest =>
      let start := if line.isEmpty then [] else line ++ [' ']
      if start.length + word.length ≤ width then fillFrom width (start ++ word) rest
      else if width < word.length then
        let room := width - start.length
        let pieces := cutWord width word.length (word.drop room)
        (start ++ word.take room) :: pieces.dropLast ++ fillFrom width (pieces.getLastD []) rest
      else line :: fillFrom width word rest

/-- The lines of a list of words. -/
def fill (width : Nat) (words : List String) : List String :=
  (fillFrom width [] (words.map String.toList)).map String.ofList

end TreeCalculus.Text
