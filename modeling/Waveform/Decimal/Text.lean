import Waveform.Decimal.Selection

/-!
# Numbers as text

Every text of a binary64 number is a layout of a chosen numeral, behind a minus sign for negative
numbers, negative zero included. Numbers that are not finite have names.
-/

namespace Waveform.Decimal

def withSign (negative : Bool) (text : List Char) : List Char :=
  if negative then '-' :: text else text

def textWith (layout : Magnitude → List Char) (number : Float) : String :=
  match Content.ofFloat number with
  | .nan => "NaN"
  | .infinite negative => String.ofList (withSign negative "inf".toList)
  | .finite negative magnitude => String.ofList (withSign negative (layout magnitude))

/-- The fewest digits that read back, written positionally: `100000`, `0.1`, `-0`. -/
def shortestPositional (number : Float) : String :=
  textWith (fun magnitude => magnitude.shortest.positional) number

/-- The fewest digits that read back, with an exponent: `1e5`, `2.5e-1`, `-0e0`. -/
def shortestScientific (number : Float) : String :=
  textWith (fun magnitude => magnitude.shortest.scientific 1 false) number

/-- Exactly `count` significant digits, with an exponent. -/
def scientificDigits (count : Nat) (number : Float) : String :=
  textWith (fun magnitude => (magnitude.withDigits count).scientific count false) number

end Waveform.Decimal
