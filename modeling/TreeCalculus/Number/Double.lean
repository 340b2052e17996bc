import TreeCalculus.Number.Ratio

/-!
Numbers of double precision.

A finite number is a sign and a magnitude `m * 2 ^ q` with `m < 2 ^ 53`. A decimal becomes the
nearest such number, and of two nearest ones the one with even `m`; a decimal that is too great
becomes infinite.

* `Magnitude`, `Double`: the numbers.
* `Magnitude.ofRatio`: the nearest magnitude of a positive fraction, without a limit on its size.
* `Double.ofDecimal`: the number that a decimal denotes.
* `Double.toInt?`: the integer that a number equals.
-/

namespace TreeCalculus.Number

/-- The magnitude `m * 2 ^ q` of a finite number. -/
structure Magnitude where
  m : Nat
  q : Int
  deriving DecidableEq

/-- A number of double precision. -/
inductive Double where
  /-- No number. -/
  | nan
  | infinite (negative : Bool)
  | finite (negative : Bool) (size : Magnitude)
  deriving DecidableEq

namespace Magnitude

/-- The least exponent. -/
def leastExponent : Int := -1074

/-- The greatest exponent. -/
def greatestExponent : Int := 971

/-- Magnitudes have less than `2 ^ precision` units in the last place. -/
def precision : Nat := 53

/-- The magnitude zero. -/
def zero : Magnitude := ⟨0, leastExponent⟩

/-- The fraction of a magnitude. -/
def ratio (x : Magnitude) : Ratio := .scaled x.m 2 x.q

/-- The nearest magnitude of a positive fraction. Rounding may reach the next power of two. -/
def ofRatio (a : Ratio) : Magnitude :=
  let top := a.magnitude 2 ((a.num.log2 : Int) - a.den.log2)
  let q := max (top - (precision - 1)) leastExponent
  let m := (a.mul (.scaled 1 2 (-q))).round
  if m = Nat.pow 2 precision then ⟨Nat.pow 2 (precision - 1), q + 1⟩ else ⟨m, q⟩

/-- The natural number that a magnitude equals, if there is one. -/
def toNat? (x : Magnitude) : Option Nat :=
  if x.ratio.num % x.ratio.den = 0 then some x.ratio.floor else none

end Magnitude

namespace Double

/-- Decimals from `10 ^ 309` on are infinite. -/
def greatestSize : Int := 309

/-- Decimals below `10 ^ (-324)` are zero. -/
def leastSize : Int := -323

/-- The number that a decimal with a sign denotes. Decimals far outside the range are settled by
their number of digits. -/
def ofDecimal (negative : Bool) (d : Decimal) : Double :=
  let size : Int := digitCount d.coefficient + d.exponent
  if d.coefficient = 0 ∨ size < leastSize then finite negative .zero
  else if greatestSize < size then infinite negative
  else
    let x := Magnitude.ofRatio d.ratio
    if Magnitude.greatestExponent < x.q then infinite negative else finite negative x

/-- The integer that a number equals, if there is one. -/
def toInt? : Double → Option Int
  | finite negative size => size.toNat?.map fun n => if negative then -n else n
  | _ => none

end Double

end TreeCalculus.Number
