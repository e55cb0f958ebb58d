import Waveform.Sampling.Grid

/-!
# Quadrature of the squared magnitude

The energy of a signal is the integral of its square. Both composite rules work on samples at equal
distance `dt`: the trapezoidal rule on adjacent pairs, Simpson's rule on triples that share their
ends, with a trapezoid for the last pair when the number of samples is even. They are defined over
any numbers, with the operations in the order in which binary64 numbers are rounded.
-/

namespace Waveform.Energy

variable {α : Type} [Add α] [Mul α] [Div α] [Neg α] [NatCast α]

def square (x : α) : α := x * x

def trapezoid (dt a b : α) : α := (square a + square b) / ((2 : Nat) : α) * dt

/-- The trapezoidal rule. The sum starts from negative zero, the neutral element of addition. -/
def trapezoidal (values : List α) (dt : α) : α :=
  (List.zipWith (trapezoid dt) values values.tail).foldl (· + ·) (-((0 : Nat) : α))

def parabola (dt a b c : α) : α :=
  (square a + ((4 : Nat) : α) * square b + square c) * dt / ((3 : Nat) : α)

def closingTrapezoid (dt a b : α) : α := (square a + square b) * dt / ((2 : Nat) : α)

/-- Adds parabolas to a sum, and the closing trapezoid if two samples are left. -/
def simpsonFrom (dt sum : α) : List α → α
  | a :: b :: c :: rest => simpsonFrom dt (sum + parabola dt a b c) (c :: rest)
  | [a, b] => sum + closingTrapezoid dt a b
  | _ => sum

/-- Simpson's rule. Fewer than three samples have no parabola and take the trapezoidal rule. -/
def simpson (values : List α) (dt : α) : α :=
  if values.length < 3 then trapezoidal values dt
  else simpsonFrom dt ((0 : Nat) : α) values

end Waveform.Energy
