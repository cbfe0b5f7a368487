import LevelIr.Binary64.Basic

/-!
# The fewest digits that read back

A decimal reads back as a floating-point number when it lies in the interval of the reals that
round to that number. `Scaled.shortest` finds the decimal with the fewest digits that reads
back, and of two such decimals the nearer one.

Everything is exact arithmetic on natural numbers: magnitudes and decimals are compared after
both are multiplied by the same power of two and the same power of ten.

Main definitions:

* `Decimal`: a decimal `digits * 10 ^ exponent`;
* `Scaled.readsBack`: whether a decimal reads back as a magnitude;
* `Scaled.shortest`: the shortest decimal that does.
-/

namespace LevelIr

/-- The decimal `digits * 10 ^ exponent`. -/
structure Decimal where
  /-- The digits, as a number. -/
  digits : Nat
  /-- The power of ten. -/
  exponent : Int
  deriving DecidableEq, Inhabited, Repr

/-- A positive fraction. -/
structure Ratio where
  /-- The numerator. -/
  num : Nat
  /-- The denominator, positive for the ratios made here. -/
  den : Nat
  deriving DecidableEq, Inhabited, Repr

/-- The power `base ^ exponent` as a fraction. -/
def Ratio.power (base : Nat) : Int → Ratio
  | .ofNat n => ⟨base.pow n, 1⟩
  | .negSucc n => ⟨1, base.pow (n + 1)⟩

namespace Scaled

/-- A quarter of the distance to the next larger magnitude, as a fraction: the unit in which
the ends of the rounding interval are whole numbers. -/
def quarter (x : Scaled) : Ratio := Ratio.power 2 (x.exponent - 2)

/-- The lower end of the rounding interval, in quarters. -/
def lower (x : Scaled) : Nat := 4 * x.coefficient - (if x.narrowBelow then 1 else 2)

/-- The upper end of the rounding interval, in quarters. -/
def upper (x : Scaled) : Nat := 4 * x.coefficient + 2

/-- Whether the ends of the interval round to this magnitude too: a tie goes to the even
coefficient. -/
def closed (x : Scaled) : Bool := x.coefficient % 2 == 0

/-- Whether `n` units of `step` round to this magnitude. -/
def readsBack (x : Scaled) (step : Ratio) (n : Nat) : Bool :=
  let point := n * step.num * x.quarter.den
  let low := x.lower * x.quarter.num * step.den
  let high := x.upper * x.quarter.num * step.den
  if x.closed then low ≤ point && point ≤ high else low < point && point < high

/-- How many whole units of `step` this magnitude holds. -/
def wholeUnits (x : Scaled) (step : Ratio) : Nat :=
  (4 * x.coefficient * x.quarter.num * step.den) / (step.num * x.quarter.den)

/-- Whether this magnitude lies at least halfway from `n` to `n + 1` units of `step`. -/
def pastHalf (x : Scaled) (step : Ratio) (n : Nat) : Bool :=
  (2 * n + 1) * step.num * x.quarter.den ≤ 2 * (4 * x.coefficient * x.quarter.num * step.den)

/-- A neighbour of this magnitude among the multiples of `10 ^ exponent` that reads back: of
two such neighbours the nearer, and the larger if both are equally near. -/
def onGrid? (x : Scaled) (exponent : Int) : Option Decimal :=
  let step := Ratio.power 10 exponent
  let n := x.wholeUnits step
  let below := x.readsBack step n
  let above := x.readsBack step (n + 1)
  if above && (!below || x.pastHalf step n) then some ⟨n + 1, exponent⟩
  else if below then some ⟨n, exponent⟩
  else none

/-- The number of decimal digits of a natural number; zero has none. -/
def digitCount (n : Nat) : Nat := if n = 0 then 0 else (Nat.toDigits 10 n).length

/-- The position of the leading digit, counted from the point to the left: the magnitude lies
between `10 ^ (places - 1)` and `10 ^ places`. -/
def places (x : Scaled) : Int :=
  let unit := Ratio.power 2 x.exponent
  let whole := x.coefficient * unit.num / unit.den
  if whole = 0 then 1 - (digitCount ((unit.den - 1) / (x.coefficient * unit.num)) : Int)
  else digitCount whole

/-- The first grid of `count` or more digits, out of `fuel` grids, that has a decimal which
reads back. -/
def search (x : Scaled) : Nat → Nat → Decimal
  | 0, count => ⟨x.wholeUnits (Ratio.power 10 (x.places - count)), x.places - count⟩
  | fuel + 1, count =>
    match x.onGrid? (x.places - count) with
    | some decimal => decimal
    | none => search x fuel (count + 1)

/-- The decimal with the fewest digits that reads back as this magnitude; seventeen digits are
always enough. -/
def shortest (x : Scaled) : Decimal := x.search 17 1

end Scaled

end LevelIr
