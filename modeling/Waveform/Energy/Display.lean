import Waveform.Decimal.Text

/-!
# Showing energies and powers

Three decimals for magnitudes from a thousandth to a thousand; outside that range one digit, three
more behind the point, and an exponent with its sign. A half goes to the even neighbour.
-/

namespace Waveform.Energy

def leastPlain : Float := 0.001

def greatestPlain : Float := 1000

def shownPlaces : Nat := 3

/-- The text of an energy or power. Anything but a finite number is shown as infinite. -/
def display (value : Float) : String :=
  if !value.isFinite then "∞"
  else if value == 0 then "0"
  else if value.abs < leastPlain || greatestPlain < value.abs then
    Decimal.textWith
      (fun magnitude =>
        (magnitude.withDigits (shownPlaces + 1)).scientific (shownPlaces + 1) true) value
  else Decimal.textWith (fun magnitude => (magnitude.withPlaces shownPlaces).positional) value

end Waveform.Energy
