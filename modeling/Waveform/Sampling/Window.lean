import Waveform.Decimal.Text

/-!
# Observation windows

The interval over which a signal is observed, and the preconditions of sampling it. Each violation
is reported before anything is computed.
-/

namespace Waveform.Sampling

structure Window where
  start : Float
  stop : Float
  deriving DecidableEq

def Window.span (window : Window) : Float := window.stop - window.start

/-- What a caller asked for that cannot be computed. -/
inductive PreconditionError where
  | emptyInterval (window : Window)
  | nonFiniteBound (window : Window)
  | spanOverflow (window : Window)
  | zeroSamples
  | tooFewSamples (required found : Nat)
  | unknownMethod (name : String)
  deriving DecidableEq

def PreconditionError.message : PreconditionError → String
  | emptyInterval window =>
    let start := Decimal.shortestPositional window.start
    let stop := Decimal.shortestPositional window.stop
    s!"Empty interval: t_end ({stop}) must be greater than t_start ({start})"
  | nonFiniteBound window =>
    let start := Decimal.shortestPositional window.start
    let stop := Decimal.shortestPositional window.stop
    s!"Interval bounds must be finite, got [{start}, {stop}]"
  | spanOverflow window =>
    let start := Decimal.shortestPositional window.start
    let stop := Decimal.shortestPositional window.stop
    s!"Interval [{start}, {stop}] is too wide to sample"
  | zeroSamples => "Sample count must be positive"
  | tooFewSamples required found => s!"At least {required} samples are required, got {found}"
  | unknownMethod name => s!"Unknown integration method: {name}"

/-- Finite bounds, in order, at a finite distance. -/
def Window.check (window : Window) : Except PreconditionError Unit :=
  if !(window.start.isFinite && window.stop.isFinite) then .error (.nonFiniteBound window)
  else if window.stop ≤ window.start then .error (.emptyInterval window)
  else if !window.span.isFinite then .error (.spanOverflow window)
  else .ok ()

def leastCount : Nat := 2

/-- A usable window, and at least two samples. -/
def Window.checkGrid (window : Window) (count : Nat) : Except PreconditionError Unit := do
  window.check
  if count = 0 then throw .zeroSamples
  if count < leastCount then throw (.tooFewSamples leastCount count)

end Waveform.Sampling
