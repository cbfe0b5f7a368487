import LevelIr.Binary64.Shortest

/-!
# The text of a floating-point constant

A constant is written with the fewest digits that read back, always positionally: never with an
exponent, and with a point only if there are digits behind it. Minus zero keeps its sign and a
NaN has none.
-/

namespace LevelIr

namespace Decimal

/-- The positional text of a decimal; zero digits at the end of the fraction are left out, and
with them the point if no digit is left. -/
def positional (d : Decimal) : String :=
  let digits := Nat.toDigits 10 d.digits
  match d.exponent with
  | .ofNat zeros => String.ofList (digits ++ List.replicate zeros '0')
  | .negSucc n =>
    let padded := List.replicate (n + 2 - digits.length) '0' ++ digits
    let whole := padded.take (padded.length - (n + 1))
    let fraction := ((padded.drop (padded.length - (n + 1))).reverse.dropWhile (· == '0')).reverse
    String.ofList (if fraction.isEmpty then whole else whole ++ '.' :: fraction)

end Decimal

namespace Binary64

/-- The text of the magnitude of a number. -/
def magnitudeText (x : Binary64) : String :=
  match x.magnitude with
  | .zero => "0"
  | .finite value => value.shortest.positional
  | .infinite => "inf"
  | .notANumber => "NaN"

/-- The text of a number. -/
def text (x : Binary64) : String :=
  if x.negative ∧ x.magnitude ≠ .notANumber then "-" ++ x.magnitudeText else x.magnitudeText

end Binary64

end LevelIr
