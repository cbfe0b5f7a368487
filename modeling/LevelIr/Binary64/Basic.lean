/-!
# Floating-point constants

A constant of type `double` is kept as its 64 bits: a sign, eleven bits of exponent and
fifty-two bits of fraction. Bits are never normalised, so a NaN keeps its payload.

Main definitions:

* `Binary64`: the bits;
* `Magnitude`: what the bits below the sign stand for;
* `Scaled`: a positive magnitude `coefficient * 2 ^ exponent`.
-/

namespace LevelIr

/-- A 64-bit floating-point number, as its bits. -/
structure Binary64 where
  /-- The bits: sign, exponent, fraction. -/
  bits : UInt64
  deriving DecidableEq, Inhabited, Repr

/-- A positive magnitude `coefficient * 2 ^ exponent`. -/
structure Scaled where
  /-- The factor of the power of two; positive for the magnitudes made by `Binary64`. -/
  coefficient : Nat
  /-- The exponent of the power of two. -/
  exponent : Int
  /-- Whether the next smaller magnitude is only half as far away as the next larger one. -/
  narrowBelow : Bool
  deriving DecidableEq, Inhabited, Repr

/-- What the bits of a number below its sign stand for. -/
inductive Magnitude where
  | zero
  | finite (value : Scaled)
  | infinite
  | notANumber
  deriving DecidableEq, Inhabited, Repr

namespace Binary64

/-- Whether the sign bit is set. -/
def negative (x : Binary64) : Bool := x.bits.toNat >>> 63 == 1

/-- The eleven bits of the exponent. -/
def exponentBits (x : Binary64) : Nat := (x.bits.toNat >>> 52) % (1 <<< 11)

/-- The fifty-two bits of the fraction. -/
def fractionBits (x : Binary64) : Nat := x.bits.toNat % (1 <<< 52)

/-- What the bits below the sign stand for. The smallest exponent has no leading one bit; at
every other exponent a zero fraction marks a power of two, whose lower neighbour lies in the
binade below. -/
def magnitude (x : Binary64) : Magnitude :=
  if x.exponentBits = 0x7ff then
    if x.fractionBits = 0 then .infinite else .notANumber
  else if x.exponentBits = 0 then
    if x.fractionBits = 0 then .zero
    else .finite ⟨x.fractionBits, -1074, false⟩
  else
    .finite ⟨(1 <<< 52) + x.fractionBits, (x.exponentBits : Int) - 1075,
      x.fractionBits = 0 ∧ x.exponentBits ≠ 1⟩

end Binary64

end LevelIr
