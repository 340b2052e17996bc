import TreeCalculus.Text.Blank
import TreeCalculus.Text.Digit
import TreeCalculus.Text.Quoted

/-!
Integers in free text.

An integer may have white space around it, one sign, decimal digits of any script, and single
underscores between digits. The separators among the controls are no white space here. A limit on
the number of digits keeps the conversion cheap, and it is checked before what follows the digits.

* `NumeralError`: a text that is no integer, or one with too many digits.
* `readDigits`: the digits at the beginning of a text.
* `readInt`: the reader.
-/

namespace TreeCalculus.Text

/-- Why a text is not read as an integer. -/
inductive NumeralError where
  /-- The text does not have the form of an integer. -/
  | malformed (text : Text)
  /-- The text has more digits than are allowed. -/
  | tooLong (digits : Nat)
  deriving DecidableEq

/-- The greatest number of digits of an integer. -/
def digitLimit : Nat := 4300

/-- The wording of a failure; of a malformed text at most two hundred code points are shown. -/
def NumeralError.message : NumeralError → Text
  | malformed text =>
      "invalid literal for int() with base 10: " ++
        .ofList ((quoted text).toList.take 200)
  | tooLong digits =>
      "Exceeds the limit (" ++ toString digitLimit ++
        " digits) for integer string conversion: value has " ++ toString digits ++
        " digits; use sys.set_int_max_str_digits() to increase the limit"

/-- White space around an integer. -/
def isNumeralBlank (c : CodePoint) : Bool := isBlank c && !(0x1c ≤ c.toNat && c.toNat ≤ 0x1f)

/-- The digits at the beginning of a text, with single underscores between them dropped, and the
rest of the text. Nothing is read where no digit stands at the beginning or where an underscore is
not followed by a digit. -/
def readDigits : List CodePoint → Option (List CodePoint × List CodePoint)
  | [] => none
  | c :: rest =>
      if isDigit c then
        match rest with
        | [] => some ([c], [])
        | .char '_' :: more => (readDigits more).map fun read => (c :: read.1, read.2)
        | d :: more =>
            if isDigit d then (readDigits (d :: more)).map fun read => (c :: read.1, read.2)
            else some ([c], d :: more)
      else none

/-- The sign in front of an integer and the rest of the text. -/
def readSign : List CodePoint → Bool × List CodePoint
  | .char '-' :: rest => (true, rest)
  | .char '+' :: rest => (false, rest)
  | rest => (false, rest)

/-- Read an integer. -/
def readInt (text : Text) : Except NumeralError Int :=
  let signed := readSign (text.toList.dropWhile isNumeralBlank)
  match readDigits signed.2 with
  | none => .error (.malformed text)
  | some (digits, rest) =>
      if digitLimit < digits.length then .error (.tooLong digits.length)
      else if rest.all isNumeralBlank then
        let magnitude : Int := digitsValue digits
        .ok (if signed.1 then -magnitude else magnitude)
      else .error (.malformed text)

end TreeCalculus.Text
