import Waveform.Catalog.Decomposition
import Waveform.Energy.Classification
import Waveform.Error
import Waveform.Options

/-!
# Named signals

A signal of a catalog: its formula, its declared duration and, if known, its decomposition. A signal
whose formula does not compile is kept with the error, so that a batch can report it.
-/

namespace Waveform.Catalog

open Waveform.Formula Waveform.Sampling Waveform.Energy

structure Signal where
  name : String
  formula : String
  duration : Duration
  program : Except FormulaError Program
  decomposition : Option Decomposition

namespace Signal

def ofFormula (name formula : String) (duration : Duration) : Signal :=
  ⟨name, formula, duration, compile formula, none⟩

def isValid (signal : Signal) : Bool := signal.program.isOk

def withDecomposition (signal : Signal) (decomposition : Decomposition) : Signal :=
  { signal with decomposition := some decomposition }

end Signal

/-! ### Sampling a decomposition -/

/-- A signal and the steps of its decomposition on one grid. -/
structure DecompositionSamples where
  signal : Series
  steps : List Series
  deriving DecidableEq

def DecompositionSamples.stepChart? (samples : DecompositionSamples) (index : Nat) :
    Option (List (Float × Option Float)) :=
  samples.steps[index]?.map Series.chart

/--
Samples a signal and its steps. A signal without a decomposition has none to sample; otherwise the
error of its formula comes before that of the window.
-/
def Signal.sampleDecomposition (signal : Signal) (options : Options) :
    Except Error (Option DecompositionSamples) :=
  match signal.decomposition with
  | none => .ok none
  | some decomposition => do
    let program ← signal.program.mapError .formula
    let grid ← options.grid.mapError .precondition
    return some ⟨Series.sample program.evaluate grid, decomposition.sample grid⟩

end Waveform.Catalog
