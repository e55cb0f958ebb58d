import Waveform.Energy.Quadrature
import Waveform.Text.Blank

/-!
# Integration methods

The choice of a quadrature rule by name, the energy of sampled values under it, and their average
power over a window.
-/

namespace Waveform.Energy

open Waveform.Sampling

inductive Method where
  | trapezoidal
  | simpson
  deriving DecidableEq, Repr

namespace Method

def name : Method → String
  | trapezoidal => "trapeze"
  | simpson => "simpson"

/-- The rule that a user names, with blank characters around the name allowed. -/
def ofText (text : String) : Except PreconditionError Method :=
  let name := Text.trim text
  if name = "trapeze" ∨ name = "trapezoidal" then .ok trapezoidal
  else if name = "simpson" then .ok simpson
  else .error (.unknownMethod name)

end Method

/-- The energy of samples at distance `dt`. -/
def integrate (method : Method) (values : List Float) (dt : Float) : Float :=
  match method with
  | .trapezoidal => trapezoidal values dt
  | .simpson => simpson values dt

@[simp] theorem integrate_trapezoidal (values : List Float) (dt : Float) :
    integrate .trapezoidal values dt = trapezoidal values dt := rfl

@[simp] theorem integrate_simpson (values : List Float) (dt : Float) :
    integrate .simpson values dt = simpson values dt := rfl

/--
The average power of samples over a window: their energy at the distance that gives every sample,
not every gap, an equal part of the window, divided by the length of the window.
-/
def averagePowerWith (method : Method) (values : List Float) (window : Window) :
    Except PreconditionError Float := do
  window.check
  if values.isEmpty then throw .zeroSamples
  let dt := window.span / (values.length : Float)
  return integrate method values dt / window.span

def averagePower (values : List Float) (window : Window) : Except PreconditionError Float :=
  averagePowerWith .trapezoidal values window

end Waveform.Energy
