import TreeCalculus.Number.Double

/-!
The shortest decimal that reads back.

The reals that are rounded to a magnitude form an interval: it reaches half way to the magnitudes on
both sides, and its ends belong to it if `m` is even. The decimals are tried by their number of
digits. If any decimal with a given number of digits lies in the interval, one of the two around the
magnitude does; if both do, the nearer one is taken, and the one with the even last digit if they
are equally near.

* `Magnitude.readsBack`: whether a decimal lies in the interval.
* `Magnitude.onGrid?`: the choice among the decimals whose last digit stands for a given power of
  ten.
* `Magnitude.shortest`: the shortest decimal.
-/

namespace TreeCalculus.Number.Magnitude

/-- Whether the magnitude below is only half as far away as the one above. -/
def isNarrowBelow (x : Magnitude) : Bool :=
  x.m == Nat.pow 2 (precision - 1) && decide (leastExponent < x.q)

/-- The lower end of the interval, in quarters of a unit in the last place. -/
def lowerEnd (x : Magnitude) : Ratio :=
  .scaled (if x.isNarrowBelow then 4 * x.m - 1 else 4 * x.m - 2) 2 (x.q - 2)

/-- The upper end of the interval. -/
def upperEnd (x : Magnitude) : Ratio := .scaled (4 * x.m + 2) 2 (x.q - 2)

/-- Whether a decimal is rounded to a magnitude. -/
def readsBack (x : Magnitude) (d : Decimal) : Bool :=
  if x.m % 2 = 0 then x.lowerEnd.le d.ratio && d.ratio.le x.upperEnd
  else x.lowerEnd.lt d.ratio && d.ratio.lt x.upperEnd

/-- The nearer of the decimals with the coefficients `below` and `below + 1`. -/
def nearer (x : Magnitude) (below : Nat) (exponent : Int) : Decimal :=
  let middle := Ratio.scaled (2 * below + 1) 10 exponent
  let twice := Ratio.scaled (2 * x.m) 2 x.q
  if twice.lt middle then ⟨below, exponent⟩
  else if middle.lt twice then ⟨below + 1, exponent⟩
  else ⟨below + below % 2, exponent⟩

/-- The decimal to take among those with a given exponent, if one reads back. -/
def onGrid? (x : Magnitude) (exponent : Int) : Option Decimal :=
  let below := (x.ratio.mul (.scaled 1 10 (-exponent))).floor
  match x.readsBack ⟨below, exponent⟩, x.readsBack ⟨below + 1, exponent⟩ with
  | true, true => some (x.nearer below exponent)
  | true, false => some ⟨below, exponent⟩
  | false, true => some ⟨below + 1, exponent⟩
  | false, false => none

/-- The decimal that is equal to a magnitude. -/
def exact (x : Magnitude) : Decimal :=
  ⟨x.m * Nat.pow 2 x.q.toNat * Nat.pow 5 (-x.q).toNat, -(-x.q).toNat⟩

/-- The greatest number of digits that is tried. -/
def digitBound : Nat := 17

/-- The shortest decimal that reads back, for a magnitude other than zero. -/
def shortest (x : Magnitude) : Decimal :=
  let a := x.ratio
  let leading := a.magnitude 10 ((digitCount a.num : Int) - digitCount a.den)
  ((List.range digitBound).findSome? fun (more : Nat) => x.onGrid? (leading - more)).getD x.exact

end TreeCalculus.Number.Magnitude
