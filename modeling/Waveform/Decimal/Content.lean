/-!
# What a binary64 number stands for

A finite number is a sign and a magnitude `mantissa * 2 ^ exponent`, exactly. Everything that
writes numbers as decimals starts from this reading of the 64 bits and stays in exact arithmetic.
-/

namespace Waveform.Decimal

/-- The number `mantissa * 2 ^ exponent`. -/
structure Magnitude where
  mantissa : Nat
  exponent : Int
  deriving DecidableEq, Repr

/-- The meaning of a binary64 number. -/
inductive Content where
  | nan
  | infinite (negative : Bool)
  | finite (negative : Bool) (magnitude : Magnitude)
  deriving DecidableEq, Repr

namespace Magnitude

def leastExponent : Int := -1074

/-- The mantissa of a power of two, below which numbers lie twice as densely as above. -/
def leastNormalMantissa : Nat := Nat.pow 2 52

/-- The magnitude written by the 52 fraction bits and the 11 exponent bits. -/
def ofFields (fraction biased : Nat) : Magnitude :=
  if biased = 0 then ⟨fraction, leastExponent⟩
  else ⟨leastNormalMantissa + fraction, (biased : Int) - 1075⟩

end Magnitude

namespace Content

def ofBits (bits : Nat) : Content :=
  let fraction := bits % Nat.pow 2 52
  let biased := bits / Nat.pow 2 52 % Nat.pow 2 11
  let negative := bits / Nat.pow 2 63 % 2 == 1
  if biased = 2047 then
    if fraction = 0 then .infinite negative else .nan
  else .finite negative (.ofFields fraction biased)

def ofFloat (number : Float) : Content := ofBits number.toBits.toNat

end Content

end Waveform.Decimal
