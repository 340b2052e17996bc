import TreeCalculus.Json.Value

/-!
Writing JSON text.

Lists and objects that are not empty are spread over lines, two spaces deeper for every level; a
comma ends a line and a colon is followed by a space. In strings the quote, the backslash and the
characters below the space are escaped, and all others are copied.

* `escaped`: one code point of a string.
* `stringPoints`: a string with its quotes.
* `valuePoints`: a value that stands at some depth.
* `render`: the whole text.
-/

namespace TreeCalculus.Json

/-- One code point of a string. -/
def escaped (c : CodePoint) : List CodePoint :=
  if c = '"' then ['\\', '"']
  else if c = '\\' then ['\\', '\\']
  else if c = '\n' then ['\\', 'n']
  else if c = '\r' then ['\\', 'r']
  else if c = '\t' then ['\\', 't']
  else if c = '\x0c' then ['\\', 'f']
  else if c = '\x08' then ['\\', 'b']
  else if c.toNat < 0x20 then (['\\', 'u'] ++ Text.hexDigits 4 c.toNat).map .char
  else [c]

/-- A string with its quotes. -/
def stringPoints (s : Text) : List CodePoint :=
  [.char '"'] ++ s.toList.flatMap escaped ++ [.char '"']

/-- The text of a number that is not written as an integer. -/
def realChars : Number.Double → List Char
  | .nan => ['N', 'a', 'N']
  | .infinite negative => (Number.signed negative "Infinity").toList
  | x => x.toText.toList

/-- The beginning of a line at some depth. -/
def newline (depth : Nat) : List CodePoint := '\n' :: List.replicate (2 * depth) (.char ' ')

mutual

/-- The text of a value that stands at some depth. -/
def valuePoints (depth : Nat) : Value → List CodePoint
  | .null => ['n', 'u', 'l', 'l']
  | .bool true => ['t', 'r', 'u', 'e']
  | .bool false => ['f', 'a', 'l', 's', 'e']
  | .int n => (toString n).toList.map .char
  | .real x => (realChars x).map .char
  | .str s => stringPoints s
  | .arr [] => ['[', ']']
  | .arr (v :: rest) =>
      [.char '['] ++ newline (depth + 1) ++ valuePoints (depth + 1) v ++
        itemsPoints (depth + 1) rest ++ newline depth ++ [.char ']']
  | .obj [] => ['\x7b', '\x7d']
  | .obj ((key, v) :: rest) =>
      [.char '\x7b'] ++ newline (depth + 1) ++ stringPoints key ++ [.char ':', .char ' '] ++
        valuePoints (depth + 1) v ++ membersPoints (depth + 1) rest ++ newline depth ++
        [.char '\x7d']

/-- The text of the items behind the first one. -/
def itemsPoints (depth : Nat) : List Value → List CodePoint
  | [] => []
  | v :: rest => [.char ','] ++ newline depth ++ valuePoints depth v ++ itemsPoints depth rest

/-- The text of the members behind the first one. -/
def membersPoints (depth : Nat) : List (Text × Value) → List CodePoint
  | [] => []
  | (key, v) :: rest =>
      [.char ','] ++ newline depth ++ stringPoints key ++ [.char ':', .char ' '] ++
        valuePoints depth v ++ membersPoints depth rest

end

/-- The text of a value. -/
def render (v : Value) : Text := .ofList (valuePoints 0 v)

end TreeCalculus.Json
