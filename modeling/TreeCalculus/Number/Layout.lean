import TreeCalculus.Number.Shortest

/-!
The text of numbers of double precision.

The digits are those of the shortest decimal that reads back. Numbers from `10 ^ (-4)` up to
`10 ^ 16` are written with a point that has digits on both sides; others with one digit in front of
the point and an exponent of at least two digits with a sign.
-/

namespace TreeCalculus.Number

/-- Digits without the zeros at their end. -/
def trimZeros (digits : List Char) : List Char := (digits.reverse.dropWhile (· == '0')).reverse

/-- Zeros. -/
def zeros (count : Nat) : List Char := List.replicate count '0'

/-- Digits with a point; the first digit stands for `10 ^ leading`. -/
def positional (digits : List Char) (leading : Int) : List Char :=
  if leading < 0 then ['0', '.'] ++ zeros (-leading - 1).toNat ++ digits
  else
    let size := leading.toNat + 1
    let fraction := digits.drop size
    digits.take size ++ zeros (size - digits.length) ++ ['.'] ++
      if fraction.isEmpty then ['0'] else fraction

/-- An exponent with its mark and sign. -/
def exponentChars (e : Int) : List Char :=
  let digits := Nat.toDigits 10 e.natAbs
  'e' :: (if e < 0 then '-' else '+') :: zeros (2 - digits.length) ++ digits

/-- Digits with an exponent; the point is left out behind a single digit. -/
def scientific (digits : List Char) (leading : Int) : List Char :=
  match digits with
  | first :: second :: rest => first :: '.' :: second :: rest ++ exponentChars leading
  | _ => digits ++ exponentChars leading

/-- The text of a decimal other than zero. -/
def Decimal.layout (d : Decimal) : List Char :=
  let digits := Nat.toDigits 10 d.coefficient
  let leading := d.exponent + digits.length - 1
  if -4 ≤ leading ∧ leading < 16 then positional (trimZeros digits) leading
  else scientific (trimZeros digits) leading

/-- The text of a magnitude. -/
def Magnitude.toText (x : Magnitude) : String :=
  if x.m = 0 then "0.0" else String.ofList x.shortest.layout

/-- A text behind the sign of a number. -/
def signed (negative : Bool) (text : String) : String := if negative then "-" ++ text else text

/-- The text of a number. -/
def Double.toText : Double → String
  | nan => "nan"
  | infinite negative => signed negative "inf"
  | finite negative size => signed negative size.toText

end TreeCalculus.Number
