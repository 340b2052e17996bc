/-!
Exact comparison and rounding of fractions.

A scaled integer `n * b ^ e` with a positive or negative exponent is a fraction of natural numbers,
so that scaled integers of different bases are compared by cross-multiplication.

* `Ratio`, `Ratio.scaled`: fractions, and the fraction of a scaled integer.
* `Ratio.le`, `Ratio.floor`, `Ratio.round`: order, whole part, and the nearest integer, where a half
  goes to the even neighbour.
* `Ratio.magnitude`: the exponent of the greatest power of a base that does not exceed a fraction.
-/

namespace TreeCalculus.Number

/-- A fraction of natural numbers; the denominator is meant to be positive. -/
structure Ratio where
  num : Nat
  den : Nat
  deriving DecidableEq

namespace Ratio

/-- The fraction `n * base ^ e`. -/
def scaled (n base : Nat) (e : Int) : Ratio := ⟨n * base.pow e.toNat, base.pow (-e).toNat⟩

/-- The product of two fractions. -/
def mul (a b : Ratio) : Ratio := ⟨a.num * b.num, a.den * b.den⟩

/-- Whether a fraction does not exceed another. -/
def le (a b : Ratio) : Bool := decide (a.num * b.den ≤ b.num * a.den)

/-- Whether a fraction is less than another. -/
def lt (a b : Ratio) : Bool := decide (a.num * b.den < b.num * a.den)

/-- The whole part of a fraction. -/
def floor (a : Ratio) : Nat := a.num / a.den

/-- The nearest integer; a half goes to the even neighbour. -/
def round (a : Ratio) : Nat :=
  let whole := a.num / a.den
  let twice := 2 * (a.num % a.den)
  if twice < a.den then whole
  else if a.den < twice then whole + 1
  else whole + whole % 2

/-- The exponent of the greatest power of `base` that does not exceed a positive fraction, given an
estimate that is right or one too great. -/
def magnitude (a : Ratio) (base : Nat) (estimate : Int) : Int :=
  if (scaled 1 base estimate).le a then estimate else estimate - 1

end Ratio

/-- The number of decimal digits of a natural number. -/
def digitCount (n : Nat) : Nat := (Nat.toDigits 10 n).length

/-- A decimal, `coefficient * 10 ^ exponent`. -/
structure Decimal where
  coefficient : Nat
  exponent : Int
  deriving DecidableEq

/-- The fraction of a decimal. -/
def Decimal.ratio (d : Decimal) : Ratio := .scaled d.coefficient 10 d.exponent

end TreeCalculus.Number
