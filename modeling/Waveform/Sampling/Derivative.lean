import Waveform.Sampling.Grid
import Waveform.Sampling.Spread

/-!
# Numerical derivatives

Central differences of half-width `h`, of a function and of a program. At a jump or a corner they
give a large finite value over a width of `2 h`, not an impulse. The definitions are over any
numbers; a series of slopes is over binary64 numbers.
-/

namespace Waveform.Sampling

open Waveform.Formula

section Differences

variable {α : Type} [Add α] [Sub α] [Mul α] [Div α] [NatCast α]

/-- The slope of the chord of `f` between `t - h` and `t + h`. -/
def centralDifference (f : α → α) (t h : α) : α :=
  (f (t + h) - f (t - h)) / (((2 : Nat) : α) * h)

variable [Pow α α]

def derivative (meaning : Expr.Semantics α) (program : Program) (t h : α) : α :=
  centralDifference (fun u => program.root.evalIn meaning u) t h

def secondDerivative (meaning : Expr.Semantics α) (program : Program) (t h : α) : α :=
  centralDifference (fun u => derivative meaning program u h) t h

end Differences

/-- The half-width used when none is given. -/
def defaultHalfWidth : Float := 1e-5

def derivativeSeries (program : Program) (ts : List Float) (h : Float) (options : Options)
    (cut : Cut Float) : List Float :=
  options.spread cut (fun t => derivative .binary64 program t h) ts

theorem derivativeSeries_eq (program : Program) (ts : List Float) (h : Float) (options : Options)
    (cut : Cut Float) :
    derivativeSeries program ts h options cut = ts.map (derivative .binary64 program · h) :=
  options.spread_eq_map cut _ ts

end Waveform.Sampling
