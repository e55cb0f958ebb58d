import Waveform.Decimal.Content

/-!
# Magnitudes on a decimal grid

A decimal grid is the multiples of a power of ten. The ratio of a magnitude to the unit of a grid
is a fraction of natural numbers, so comparing the two, finding the neighbours of a magnitude on a
grid and rounding it to one take no approximation.
-/

namespace Waveform.Decimal

structure Ratio where
  numerator : Nat
  denominator : Nat
  deriving DecidableEq, Repr

/-- The fraction rounded to the nearest natural number, a half to the even neighbour. -/
def Ratio.round (ratio : Ratio) : Nat :=
  let quotient := ratio.numerator / ratio.denominator
  let remainder := ratio.numerator % ratio.denominator
  if 2 * remainder < ratio.denominator then quotient
  else if ratio.denominator < 2 * remainder then quotient + 1
  else if quotient % 2 = 0 then quotient
  else quotient + 1

namespace Magnitude

/-- The magnitude counted in units of `10 ^ unit`. -/
def ratio (magnitude : Magnitude) (unit : Int) : Ratio where
  numerator := magnitude.mantissa * Nat.pow 2 magnitude.exponent.toNat * Nat.pow 10 (-unit).toNat
  denominator := Nat.pow 2 (-magnitude.exponent).toNat * Nat.pow 10 unit.toNat

def digitCount (n : Nat) : Nat := (Nat.toDigits 10 n).length

/--
The exponent of the leading decimal digit: `10 ^ decade` is the greatest power of ten that is at
most the magnitude. The digit counts of numerator and denominator leave two candidates.
-/
def decade (magnitude : Magnitude) : Int :=
  let whole := magnitude.ratio 0
  let upper : Int := (digitCount whole.numerator : Int) - digitCount whole.denominator
  let atUpper := magnitude.ratio upper
  if atUpper.denominator ≤ atUpper.numerator then upper else upper - 1

end Magnitude

end Waveform.Decimal
