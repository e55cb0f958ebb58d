import Waveform.Sampling.Grid

/-!
# Sampled signals

The values of a signal on a grid, each with its instant. A chart shows no point where the value is
not finite.
-/

namespace Waveform.Sampling

/-- Values of a signal with their instants, in the order of the grid. -/
structure Series where
  points : List (Float × Float)
  deriving DecidableEq

namespace Series

def sample (signal : Float → Float) (grid : TimeGrid) : Series :=
  ⟨grid.times.map fun t => (t, signal t)⟩

def times (series : Series) : List Float := series.points.map (·.1)

def values (series : Series) : List Float := series.points.map (·.2)

@[simp] theorem times_sample (signal : Float → Float) (grid : TimeGrid) :
    (sample signal grid).times = grid.times := by
  simp [sample, times, Function.comp_def]

@[simp] theorem values_sample (signal : Float → Float) (grid : TimeGrid) :
    (sample signal grid).values = grid.times.map signal := by
  simp [sample, values, Function.comp_def]

def length (series : Series) : Nat := series.points.length

@[simp] theorem length_sample (signal : Float → Float) (grid : TimeGrid) :
    (sample signal grid).length = grid.count := by
  simp [sample, length]

def isEmpty (series : Series) : Bool := series.points.isEmpty

def finiteCount (series : Series) : Nat := series.values.countP Float.isFinite

/-- The points of a chart: the value is missing where it is not finite. -/
def chart (series : Series) : List (Float × Option Float) :=
  series.points.map fun (t, value) => (t, if value.isFinite then some value else none)

end Series

end Waveform.Sampling
