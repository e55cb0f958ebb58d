import Waveform.Catalog.Basic

/-!
# Batch analysis

Every signal of a catalog, classified by its declared duration on one grid. An unusable window fails
the whole batch; a signal that cannot be measured is reported as such and leaves the others alone.
-/

namespace Waveform.Catalog

open Waveform.Formula Waveform.Sampling Waveform.Energy

/-- The classification of one signal, or the error in place of it. -/
structure Report where
  name : String
  formula : String
  duration : Duration
  classification : Classification
  error : Option ComputationError
  deriving DecidableEq

namespace Report

def measured (signal : Signal) (classification : Classification) : Report :=
  ⟨signal.name, signal.formula, signal.duration, classification, none⟩

def failed (signal : Signal) (error : ComputationError) : Report :=
  ⟨signal.name, signal.formula, signal.duration, .failed, some error⟩

def isError (report : Report) : Bool := report.error.isSome

end Report

def Signal.measure (signal : Signal) (grid : TimeGrid) (method : Method) :
    Except ComputationError Classification := do
  let program ← signal.program.mapError fun error => ⟨signal.name, error.message⟩
  let values := program.evaluateAll grid.times
  match signal.duration with
  | .finite => return classify .finite (integrate method values grid.step) 0
  | .infinite =>
    let power ← (averagePower values grid.window).mapError fun error =>
      ⟨signal.name, error.message⟩
    return classify .infinite Classification.infinity power

def Signal.report (signal : Signal) (grid : TimeGrid) (method : Method) : Report :=
  match signal.measure grid method with
  | .ok classification => .measured signal classification
  | .error error => .failed signal error

/-! ### Summaries -/

/-- The lesser of two numbers, the second one if they are equal. -/
def lesser (first second : Float) : Float := if first < second then first else second

def greater (first second : Float) : Float := if second < first then first else second

/-- How many signals are of which kind, and the extremes of the finite energies. -/
structure Summary where
  energyCount : Nat
  powerCount : Nat
  errorCount : Nat
  minEnergy : Option Float
  maxEnergy : Option Float
  deriving DecidableEq

namespace Summary

def empty : Summary := ⟨0, 0, 0, none, none⟩

def count (summary : Summary) : SignalClass → Summary
  | .finiteEnergy => { summary with energyCount := summary.energyCount + 1 }
  | .finitePower | .infinitePower => { summary with powerCount := summary.powerCount + 1 }
  | .computationError => { summary with errorCount := summary.errorCount + 1 }

/-- Takes an energy into the extremes if it is finite. Of equal energies the latest one is kept. -/
def includeEnergy (summary : Summary) (energy : Float) : Summary :=
  if energy.isFinite then
    { summary with
      minEnergy := some (summary.minEnergy.elim energy (lesser · energy))
      maxEnergy := some (summary.maxEnergy.elim energy (greater · energy)) }
  else summary

def add (summary : Summary) (classification : Classification) : Summary :=
  (summary.count classification.signalClass).includeEnergy classification.energy

def ofClassifications (classifications : List Classification) : Summary :=
  classifications.foldl add empty

def ofReports (reports : List Report) : Summary :=
  ofClassifications (reports.map (·.classification))

end Summary

/-! ### Batches -/

/-- The reports of a catalog in its order, and their summary. -/
structure Batch where
  reports : List Report
  summary : Summary
  deriving DecidableEq

def Batch.get? (batch : Batch) (name : String) : Option Report :=
  batch.reports.find? fun report => report.name = name

/-- Reports on every signal under given options, each under its own duration. -/
def analyzeWith (catalog : Catalog) (options : Options) : Except PreconditionError Batch := do
  let grid ← options.grid
  let reports := catalog.rows.map fun signal => signal.report grid options.method
  return ⟨reports, .ofReports reports⟩

/-- Reports on every signal over a window, on the grid size for catalogs. -/
def analyze (catalog : Catalog) (method : Method) (window : Window) :
    Except PreconditionError Batch :=
  analyzeWith catalog { Options.forCatalog with window, method }

end Waveform.Catalog
