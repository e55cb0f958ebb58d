/-!
# Decimal numerals

A numeral `coefficient * 10 ^ exponent` and the two ways to write it: positionally, or with one
digit before the point and an exponent. Both write every digit of the coefficient, so how many
digits appear is decided where the coefficient is chosen.
-/

namespace Waveform.Decimal

/-- The number `coefficient * 10 ^ exponent`. -/
structure Numeral where
  coefficient : Nat
  exponent : Int
  deriving DecidableEq, Repr

def paddedDigits (width n : Nat) : List Char :=
  let digits := Nat.toDigits 10 n
  List.replicate (width - digits.length) '0' ++ digits

namespace Numeral

/-- The numeral of the same value whose coefficient does not end in zero. -/
def reduced (numeral : Numeral) : Numeral :=
  if h : numeral.coefficient ≠ 0 ∧ numeral.coefficient % 10 = 0 then
    reduced ⟨numeral.coefficient / 10, numeral.exponent + 1⟩
  else numeral
termination_by numeral.coefficient

/-- Positional digits, with a point before the last `-exponent` of them. -/
def positional (numeral : Numeral) : List Char :=
  let places := (-numeral.exponent).toNat
  let digits := paddedDigits (places + 1) numeral.coefficient
  if places = 0 then digits ++ List.replicate numeral.exponent.toNat '0'
  else digits.take (digits.length - places) ++ '.' :: digits.drop (digits.length - places)

def exponentText (plus : Bool) (exponent : Int) : List Char :=
  if exponent < 0 then '-' :: Nat.toDigits 10 exponent.natAbs
  else if plus then '+' :: Nat.toDigits 10 exponent.natAbs
  else Nat.toDigits 10 exponent.natAbs

/--
One digit, the rest of the coefficient behind a point, and the exponent. The coefficient is shown
with `width` digits at least.
-/
def scientific (width : Nat) (plus : Bool) (numeral : Numeral) : List Char :=
  let digits := paddedDigits width numeral.coefficient
  let exponent := numeral.exponent + ((digits.length : Int) - 1)
  let fraction := digits.drop 1
  let point := if fraction.isEmpty then [] else '.' :: fraction
  digits.take 1 ++ point ++ 'e' :: exponentText plus exponent

/-- The binary64 number nearest to the numeral. -/
def toFloat (numeral : Numeral) : Float :=
  Float.ofScientific numeral.coefficient (numeral.exponent < 0) numeral.exponent.natAbs

end Numeral

end Waveform.Decimal
