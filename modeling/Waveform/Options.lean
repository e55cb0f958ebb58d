import Waveform.Energy.Classification
import Waveform.Energy.Method
import Waveform.Formula.Parser

/-!
# Analysis options

What a user can choose about an analysis. How a series is spread over processors is chosen here as
well, and no result depends on it.
-/

namespace Waveform

open Waveform.Sampling Waveform.Energy

/-- How a signal is sampled, integrated and classified. -/
structure Options where
  window : Window
  sampleCount : Nat
  method : Method
  duration : Duration
  useParallel : Bool
  parallelThreshold : Nat
  maxNodes : Nat
  magnitudeThreshold : Option Float
  deriving DecidableEq

namespace Options

def standard : Options where
  window := ⟨-5, 5⟩
  sampleCount := 500
  method := .trapezoidal
  duration := .infinite
  useParallel := true
  parallelThreshold := 256
  maxNodes := Formula.Parser.defaultMaxNodes
  magnitudeThreshold := none

def forCatalog : Options := { standard with window := ⟨-10, 10⟩, sampleCount := 1000 }

def span (options : Options) : Float := options.window.span

/-- Whether the window and the sample count make a grid. -/
def validate (options : Options) : Except PreconditionError Unit :=
  options.window.checkGrid options.sampleCount

def grid (options : Options) : Except PreconditionError TimeGrid :=
  TimeGrid.ofWindow options.window options.sampleCount

/-- Whether so many samples are worth spreading over processors. -/
def shouldParallelize (options : Options) (count : Nat) : Bool :=
  options.useParallel && options.parallelThreshold ≤ count

end Options

end Waveform
