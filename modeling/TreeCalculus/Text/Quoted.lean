import TreeCalculus.Text.Printable

/-!
Quoted text, the form in which messages show a name.

A text stands in single quotes, or in double quotes if it holds a single quote and no double one.
Inside, a backslash and the quote in use are escaped, line feed, carriage return and tab have
letters of their own, every other unprintable code point is written by its number in lower-case
hexadecimal digits, and the printable ones are copied.

* `hexDigits`: a number in a fixed count of hexadecimal digits.
* `quoteFor`: the choice of the quote.
* `quoted`: the whole form.
-/

namespace TreeCalculus.Text

/-- The lower-case hexadecimal digit of a number below sixteen. -/
def hexDigit (n : Nat) : Char :=
  if n < 10 then Char.ofNat (48 + n) else Char.ofNat (87 + n)

/-- The last `count` hexadecimal digits of `n`, most significant first. -/
def hexDigits : (count n : Nat) → List Char
  | 0, _ => []
  | count + 1, n => hexDigits count (n / 16) ++ [hexDigit (n % 16)]

/-- An unprintable code point by its number, in the shortest of the three widths. -/
def escapeCode (c : CodePoint) : List Char :=
  if c.toNat < 0x100 then '\\' :: 'x' :: hexDigits 2 c.toNat
  else if c.toNat < 0x10000 then '\\' :: 'u' :: hexDigits 4 c.toNat
  else '\\' :: 'U' :: hexDigits 8 c.toNat

/-- One code point between quotes. -/
def escapePoint (quote : Char) (c : CodePoint) : List CodePoint :=
  if c = '\\' ∨ c = quote then ['\\', c]
  else if c = '\n' then ['\\', 'n']
  else if c = '\r' then ['\\', 'r']
  else if c = '\t' then ['\\', 't']
  else if isPrintable c then [c]
  else (escapeCode c).map .char

/-- The single quote. -/
def singleQuote : Char := '\x27'

/-- The double quote. -/
def doubleQuote : Char := '\x22'

/-- Double quotes serve a text that holds a single quote and no double one. -/
def quoteFor (t : Text) : Char :=
  if .char singleQuote ∈ t.toList ∧ .char doubleQuote ∉ t.toList then doubleQuote else singleQuote

/-- The text between quotes, with everything escaped that needs it. -/
def quoted (t : Text) : Text :=
  let quote := quoteFor t
  .ofList ([.char quote] ++ t.toList.flatMap (escapePoint quote) ++ [.char quote])

end TreeCalculus.Text
