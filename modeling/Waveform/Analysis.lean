import Waveform.Error
import Waveform.Formula.Program
import Waveform.Options
import Waveform.Sampling.Series

/-!
# Analysis of a formula

Everything about one formula over one window: its samples, their energy, its average power and its
class. The window is checked before the formula is compiled, and nothing is evaluated unless both
are fine.
-/

namespace Waveform

open Waveform.Formula Waveform.Sampling Waveform.Energy

structure Analysis where
  program : Program
  series : Series
  windowEnergy : Float
  averagePower : Float
  classification : Classification

namespace Analysis

def onGrid (program : Program) (options : Options) (grid : TimeGrid) :
    Except PreconditionError Analysis := do
  let series := Series.sample program.evaluate grid
  let energy := integrate options.method series.values grid.step
  match options.magnitudeThreshold with
  | some threshold =>
    let power := energy / grid.span
    return ⟨program, series, energy, power, classifyByMagnitude energy power threshold⟩
  | none =>
    let power ← Energy.averagePower series.values grid.window
    return ⟨program, series, energy, power, classify options.duration energy power⟩

def ofProgram (program : Program) (options : Options) : Except PreconditionError Analysis := do
  onGrid program options (← options.grid)

def ofFormula (source : String) (options : Options) : Except Error Analysis := do
  options.validate.mapError .precondition
  let program ← (compileWith source options.maxNodes).mapError .formula
  (ofProgram program options).mapError .precondition

end Analysis

/-! ### Measures over a window -/

def gridValues (program : Program) (grid : TimeGrid) : List Float :=
  program.evaluateAll grid.times

/-- The energy of a program over a window by the trapezoidal rule. -/
def windowEnergy (program : Program) (window : Window) (count : Nat) :
    Except PreconditionError Float := do
  let grid ← TimeGrid.ofWindow window count
  return trapezoidal (gridValues program grid) grid.step

def windowPower (program : Program) (window : Window) (count : Nat) :
    Except PreconditionError Float := do
  let grid ← TimeGrid.ofWindow window count
  averagePower (gridValues program grid) window

end Waveform
