import TreeCalculus.Json.Value
import TreeCalculus.Table
import TreeCalculus.Text.Numeral

/-!
Reading JSON text.

The reader goes through the code points once and reports the first fault with its place. It is more
liberal than the standard in one point: `NaN`, `Infinity` and `-Infinity` are values. A repeated key
keeps its first place and its last value.

* `Problem`, `ReadError`: what can be wrong, and its wording with line, column and position.
* `readString`: a string after its opening quote.
* `readNumber`: a number, as far as it goes.
* `readValue`, `readItems`, `readMembers`: values, and what stands between brackets.
* `parse`: a whole text.
-/

namespace TreeCalculus.Json

/-! ### Faults -/

/-- What can be wrong with a text at some place. -/
inductive Problem where
  | expectedValue
  | expectedKey
  | expectedColon
  | expectedComma
  | unterminatedString
  | controlCharacter
  | badEscape
  | badUnicodeEscape
  | extraData
  | byteOrderMark
  deriving DecidableEq

/-- The wording of a problem. -/
def Problem.message : Problem → String
  | expectedValue => "Expecting value"
  | expectedKey => "Expecting property name enclosed in double quotes"
  | expectedColon => "Expecting ':' delimiter"
  | expectedComma => "Expecting ',' delimiter"
  | unterminatedString => "Unterminated string starting at"
  | controlCharacter => "Invalid control character at"
  | badEscape => "Invalid \\escape"
  | badUnicodeEscape => "Invalid \\uXXXX escape"
  | extraData => "Extra data"
  | byteOrderMark => "Unexpected UTF-8 BOM (decode using utf-8-sig)"

/-- The place of a fault, by the text that is left there, or an integer that is too long. -/
inductive Fault where
  | found (problem : Problem) (left : List CodePoint)
  | numeral (e : Text.NumeralError)

/-- Why a text is not read. -/
inductive ReadError where
  /-- A problem at a position, counted from zero. -/
  | malformed (problem : Problem) (line column position : Nat)
  | numeral (e : Text.NumeralError)

/-- The wording of a failure. -/
def ReadError.message : ReadError → Text
  | malformed problem line column position =>
      problem.message ++ ": line " ++ toString line ++ " column " ++ toString column ++
        " (char " ++ toString position ++ ")"
  | numeral e => e.message

/-- The failure of a text with a fault. Lines and columns count from one, and only a line feed ends
a line. -/
def Fault.toError (text : List CodePoint) : Fault → ReadError
  | found problem left =>
      let read := text.take (text.length - left.length)
      let lastLine := read.reverse.takeWhile (· != .char '\n')
      .malformed problem (read.count (.char '\n') + 1) (lastLine.length + 1) read.length
  | numeral e => .numeral e

/-! ### White space and strings -/

/-- White space between the parts of a text. -/
def isSpace (c : CodePoint) : Bool := c == ' ' || c == '\t' || c == '\n' || c == '\r'

/-- Skip white space. -/
def skipSpace (cs : List CodePoint) : List CodePoint := cs.dropWhile isSpace

/-- The character that a letter after a backslash stands for. -/
def escapeValue? : CodePoint → Option Char
  | .char '"' => some '"'
  | .char '\\' => some '\\'
  | .char '/' => some '/'
  | .char 'b' => some '\x08'
  | .char 'f' => some '\x0c'
  | .char 'n' => some '\n'
  | .char 'r' => some '\r'
  | .char 't' => some '\t'
  | _ => none

/-- The value of a hexadecimal digit. -/
def hexValue? : CodePoint → Option Nat
  | .char c =>
      if '0' ≤ c ∧ c ≤ '9' then some (c.toNat - 48)
      else if 'a' ≤ c ∧ c ≤ 'f' then some (c.toNat - 87)
      else if 'A' ≤ c ∧ c ≤ 'F' then some (c.toNat - 55)
      else none
  | .half _ => none

/-- The value of four hexadecimal digits. -/
def hexUnit? (a b c d : CodePoint) : Option Nat := do
  let a' ← hexValue? a
  let b' ← hexValue? b
  let c' ← hexValue? c
  let d' ← hexValue? d
  return ((a' * 16 + b') * 16 + c') * 16 + d'

/-- Whether a code unit is the first half of a pair. -/
def isHighSurrogate (unit : Nat) : Bool := 0xd800 ≤ unit && unit ≤ 0xdbff

/-- Whether a code unit is the second half of a pair. -/
def isLowSurrogate (unit : Nat) : Bool := 0xdc00 ≤ unit && unit ≤ 0xdfff

/-- The character of a pair of halves. -/
def pairChar (high low : Nat) : Char :=
  Char.ofNat (0x10000 + (high - 0xd800) * 0x400 + (low - 0xdc00))

/-- A part of a string: a code point as it stands, or a code unit given by its number. -/
inductive Piece where
  | plain (c : CodePoint)
  | unit (n : Nat)

/-- The code points of the parts of a string, where `pending` is a code unit just before them that
is the first half of a pair. Two halves make a character if both are given by their numbers and one
follows the other; any other half stands alone. -/
def joinPieces : (pending : Option Nat) → List Piece → List CodePoint
  | none, [] => []
  | some high, [] => [.ofNat high]
  | none, .plain c :: rest => c :: joinPieces none rest
  | some high, .plain c :: rest => .ofNat high :: c :: joinPieces none rest
  | none, .unit n :: rest =>
      if isHighSurrogate n then joinPieces (some n) rest else .ofNat n :: joinPieces none rest
  | some high, .unit n :: rest =>
      if isLowSurrogate n then .char (pairChar high n) :: joinPieces none rest
      else if isHighSurrogate n then .ofNat high :: joinPieces (some n) rest
      else .ofNat high :: .ofNat n :: joinPieces none rest

/-- Read a string after its opening quote; `opened` is the text from that quote on. The parts are
returned with the text after the closing quote. An escape by number needs four digits and at least
one code point behind them. -/
def readPieces (opened : List CodePoint) :
    List CodePoint → Except Fault (List Piece × List CodePoint)
  | [] => .error (.found .unterminatedString opened)
  | .char '"' :: rest => .ok ([], rest)
  | .char '\\' :: rest =>
      match rest with
      | [] => .error (.found .unterminatedString opened)
      | .char 'u' :: a :: b :: c :: d :: more =>
          match hexUnit? a b c d, more.isEmpty with
          | some n, false => (readPieces opened more).map fun read => (.unit n :: read.1, read.2)
          | _, _ => .error (.found .badUnicodeEscape rest)
      | .char 'u' :: _ => .error (.found .badUnicodeEscape rest)
      | e :: more =>
          match escapeValue? e with
          | some c => (readPieces opened more).map fun read => (.plain c :: read.1, read.2)
          | none => .error (.found .badEscape (.char '\\' :: rest))
  | c :: rest =>
      if c.toNat < 0x20 then .error (.found .controlCharacter (c :: rest))
      else (readPieces opened rest).map fun read => (.plain c :: read.1, read.2)

/-- Read a string after its opening quote. -/
def readString (opened left : List CodePoint) : Except Fault (Text × List CodePoint) :=
  (readPieces opened left).map fun read => (.ofList (joinPieces none read.1), read.2)

/-! ### Numbers -/

/-- The digits at the beginning of a text and the rest. -/
def spanDigits (cs : List CodePoint) : List CodePoint × List CodePoint :=
  (cs.takeWhile Text.isBasicDigit, cs.dropWhile Text.isBasicDigit)

/-- The digits of the integer part of a number; after a zero no digit follows. -/
def readWhole? : List CodePoint → Option (List CodePoint × List CodePoint)
  | .char '0' :: rest => some (['0'], rest)
  | cs =>
      match spanDigits cs with
      | ([], _) => none
      | (digits, rest) => some (digits, rest)

/-- The fraction of a number, with its point; nothing if no digit follows the point. -/
def readFraction : List CodePoint → List CodePoint × List CodePoint
  | .char '.' :: rest =>
      match spanDigits rest with
      | ([], _) => ([], .char '.' :: rest)
      | (digits, rest') => (.char '.' :: digits, rest')
  | cs => ([], cs)

/-- The sign of an exponent and the rest. -/
def readExponentSign : List CodePoint → List CodePoint × List CodePoint
  | .char '+' :: rest => (['+'], rest)
  | .char '-' :: rest => (['-'], rest)
  | cs => ([], cs)

/-- The exponent of a number, with its mark; nothing if no digit follows. -/
def readExponent : List CodePoint → List CodePoint × List CodePoint
  | [] => ([], [])
  | mark :: rest =>
      if mark = 'e' ∨ mark = 'E' then
        let signed := readExponentSign rest
        match spanDigits signed.2 with
        | ([], _) => ([], mark :: rest)
        | (digits, rest') => (mark :: (signed.1 ++ digits), rest')
      else ([], mark :: rest)

/-- The value of an exponent with its mark; nothing stands for zero. -/
def exponentValue : List CodePoint → Int
  | _ :: .char '-' :: digits => -(Text.digitsValue digits : Int)
  | _ :: .char '+' :: digits => Text.digitsValue digits
  | _ :: digits => Text.digitsValue digits
  | [] => 0

/-- The number with an integer part, a fraction with its point, and an exponent with its mark. -/
def realOf (negative : Bool) (whole fraction exponent : List CodePoint) : Number.Double :=
  let decimals := fraction.drop 1
  .ofDecimal negative
    { coefficient := Text.digitsValue (whole ++ decimals)
      exponent := exponentValue exponent - decimals.length }

/-- A number without its sign. -/
def readMagnitude (negative : Bool) (cs : List CodePoint) :
    Except Fault (Option (Value × List CodePoint)) :=
  match readWhole? cs with
  | none => .ok none
  | some (digits, rest) =>
      let fraction := readFraction rest
      let exponent := readExponent fraction.2
      if fraction.1.isEmpty && exponent.1.isEmpty then
        if Text.digitLimit < digits.length then .error (.numeral (.tooLong digits.length))
        else
          let magnitude : Int := Text.digitsValue digits
          .ok (some (.int (if negative then -magnitude else magnitude), exponent.2))
      else
        .ok (some (.real (realOf negative digits fraction.1 exponent.1), exponent.2))

/-- A number, or nothing if none stands here. -/
def readNumber : List CodePoint → Except Fault (Option (Value × List CodePoint))
  | .char '-' :: rest => readMagnitude true rest
  | cs => readMagnitude false cs

/-! ### Values -/

/-- The values that are written as words. -/
def words : List (Text × Value) :=
  [("null", .null), ("true", .bool true), ("false", .bool false), ("NaN", .real .nan),
   ("Infinity", .real (.infinite false)), ("-Infinity", .real (.infinite true))]

/-- What follows a word at the beginning of a text. -/
def afterWord? : (word cs : List CodePoint) → Option (List CodePoint)
  | [], cs => some cs
  | _ :: _, [] => none
  | w :: word, c :: cs => if w = c then afterWord? word cs else none

/-- A value that is written as a word. -/
def readWord? (cs : List CodePoint) : Option (Value × List CodePoint) :=
  words.findSome? fun entry => (afterWord? entry.1.toList cs).map fun rest => (entry.2, rest)

/-- A value without inner values, a string apart. -/
def readAtom (cs : List CodePoint) : Except Fault (Value × List CodePoint) :=
  match readWord? cs with
  | some read => .ok read
  | none =>
      match readNumber cs with
      | .error e => .error e
      | .ok (some read) => .ok read
      | .ok none => .error (.found .expectedValue cs)

mutual

/-- Read a value that begins here. Every call spends fuel; twice the length of the text is enough,
since no two calls in a row leave the text as it is. -/
def readValue : (fuel : Nat) → List CodePoint → Except Fault (Value × List CodePoint)
  | 0, cs => .error (.found .expectedValue cs)
  | fuel + 1, cs =>
      match cs with
      | .char '"' :: rest => (readString cs rest).map fun read => (.str read.1, read.2)
      | .char '[' :: rest =>
          match skipSpace rest with
          | .char ']' :: rest' => .ok (.arr [], rest')
          | rest' => (readItems fuel rest').map fun read => (.arr read.1, read.2)
      | .char '\x7b' :: rest =>
          match skipSpace rest with
          | .char '\x7d' :: rest' => .ok (.obj [], rest')
          | rest' => (readMembers fuel [] rest').map fun read => (.obj read.1, read.2)
      | _ => readAtom cs

/-- Read the items of a list, up to the closing bracket. -/
def readItems : (fuel : Nat) → List CodePoint → Except Fault (List Value × List CodePoint)
  | 0, cs => .error (.found .expectedValue cs)
  | fuel + 1, cs =>
      match readValue fuel cs with
      | .error e => .error e
      | .ok (v, rest) =>
          match skipSpace rest with
          | .char ']' :: rest' => .ok ([v], rest')
          | .char ',' :: rest' =>
              (readItems fuel (skipSpace rest')).map fun read => (v :: read.1, read.2)
          | rest' => .error (.found .expectedComma rest')

/-- Read the members of an object, up to the closing brace, behind the members `done`. -/
def readMembers : (fuel : Nat) → (done : List (Text × Value)) → List CodePoint →
    Except Fault (List (Text × Value) × List CodePoint)
  | 0, _, cs => .error (.found .expectedValue cs)
  | fuel + 1, done, cs =>
      match cs with
      | .char '"' :: rest =>
          match readString cs rest with
          | .error e => .error e
          | .ok (key, rest₁) =>
              match skipSpace rest₁ with
              | .char ':' :: rest₂ =>
                  match readValue fuel (skipSpace rest₂) with
                  | .error e => .error e
                  | .ok (v, rest₃) =>
                      let done' := Table.insertEntry key v done
                      match skipSpace rest₃ with
                      | .char '\x7d' :: rest₄ => .ok (done', rest₄)
                      | .char ',' :: rest₄ => readMembers fuel done' (skipSpace rest₄)
                      | rest₄ => .error (.found .expectedComma rest₄)
              | rest₂ => .error (.found .expectedColon rest₂)
      | _ => .error (.found .expectedKey cs)

end

/-- Read a whole text: one value with white space around it. -/
def readText (cs : List CodePoint) : Except Fault Value :=
  match readValue (2 * cs.length + 2) (skipSpace cs) with
  | .error e => .error e
  | .ok (v, rest) =>
      match skipSpace rest with
      | [] => .ok v
      | rest' => .error (.found .extraData rest')

/-- The character that some writers put at the beginning of a text to tell its byte order. -/
def byteOrderMark : Char := '\ufeff'

/-- Read a whole text, which may not begin with a byte order mark. -/
def parse (text : Text) : Except ReadError Value :=
  let cs := text.toList
  let read :=
    if cs.head? = some (.char byteOrderMark) then .error (Fault.found .byteOrderMark cs)
    else readText cs
  read.mapError (Fault.toError cs)

end TreeCalculus.Json
