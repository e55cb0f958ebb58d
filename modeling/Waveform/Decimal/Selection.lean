import Waveform.Decimal.Grid
import Waveform.Decimal.Numeral

/-!
# Choosing the digits of a number

Three choices of a numeral for a magnitude: the fewest digits that still read back as the same
binary64 number, a given count of significant digits, and a given count of decimal places. The
first looks at ever finer decimal grids and takes a neighbour of the magnitude on the first grid
where one lies among the reals that round to it; the other two round to the nearest point of one
grid.
-/

namespace Waveform.Decimal

namespace Magnitude

def quarterStep (magnitude : Magnitude) : Magnitude := ⟨1, magnitude.exponent - 2⟩

/-- Quarter steps from a number down to the halfway point below it: one below a power of two. -/
def quartersBelow (magnitude : Magnitude) : Nat :=
  if magnitude.mantissa = leastNormalMantissa ∧ leastExponent < magnitude.exponent then 1 else 2

/--
Whether `coefficient * 10 ^ unit` rounds to the magnitude: it lies between the halfway points to
the two neighbours, which themselves round to an even mantissa.
-/
def readsBack (magnitude : Magnitude) (unit : Int) (coefficient : Nat) : Bool :=
  let quarter := magnitude.quarterStep.ratio unit
  let point := coefficient * quarter.denominator
  let low := (4 * magnitude.mantissa - magnitude.quartersBelow) * quarter.numerator
  let high := (4 * magnitude.mantissa + 2) * quarter.numerator
  if magnitude.mantissa % 2 = 0 then low ≤ point && point ≤ high
  else low < point && point < high

/-- The two neighbours on a grid, the nearer one first and the upper one first when equally near. -/
def neighbours (magnitude : Magnitude) (unit : Int) : List Nat :=
  let ratio := magnitude.ratio unit
  let below := ratio.numerator / ratio.denominator
  if 2 * (ratio.numerator % ratio.denominator) < ratio.denominator then [below, below + 1]
  else [below + 1, below]

/-- The neighbour on a grid that reads back as the magnitude, if there is one. -/
def numeralOn? (magnitude : Magnitude) (unit : Int) : Option Numeral :=
  ((magnitude.neighbours unit).find? (magnitude.readsBack unit)).map (⟨·, unit⟩)

/-- Seventeen significant digits tell every binary64 number from its neighbours. -/
def sufficientDigits : Nat := 17

/-- The numeral with the fewest digits that reads back as the magnitude. -/
def shortest (magnitude : Magnitude) : Numeral :=
  if magnitude.mantissa = 0 then ⟨0, 0⟩
  else
    let decade := magnitude.decade
    let finest : Int := decade - (sufficientDigits - 1)
    let found := (List.range sufficientDigits).findSome? fun (step : Nat) =>
      magnitude.numeralOn? (decade - step)
    (found.getD ⟨(magnitude.ratio finest).round, finest⟩).reduced

/-- The numeral on the grid of `places` decimal places that is nearest to the magnitude. -/
def withPlaces (places : Nat) (magnitude : Magnitude) : Numeral :=
  ⟨(magnitude.ratio (-places)).round, -places⟩

/--
The numeral with `count` significant digits that is nearest to the magnitude. Rounding up to a
power of ten gives one digit too many, whose last one is a zero.
-/
def withDigits (count : Nat) (magnitude : Magnitude) : Numeral :=
  let unit : Int := (if magnitude.mantissa = 0 then 0 else magnitude.decade) - ((count : Int) - 1)
  let coefficient := (magnitude.ratio unit).round
  if coefficient = Nat.pow 10 count then ⟨Nat.pow 10 (count - 1), unit + 1⟩ else ⟨coefficient, unit⟩

end Magnitude

end Waveform.Decimal
