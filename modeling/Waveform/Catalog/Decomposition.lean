import Waveform.Formula.Program
import Waveform.Sampling.Series

/-!
# Decompositions

A signal told in steps, each a formula of its own. Either every step transforms the one before it,
and the last one is the signal, or the steps are components and their sum is the signal.
-/

namespace Waveform.Catalog

open Waveform.Formula Waveform.Sampling

/-- How the steps give back the signal. -/
inductive Combination where
  | sequence
  | sum
  deriving DecidableEq, Repr

structure DecompositionStep where
  description : String
  program : Program
  deriving DecidableEq

structure Decomposition where
  combination : Combination
  steps : List DecompositionStep
  deriving DecidableEq

namespace Decomposition

/-- Compiles descriptions and formulas. The first formula that does not compile is the error. -/
def compile (combination : Combination) (parts : List (String × String)) :
    Except FormulaError Decomposition := do
  let steps ← parts.mapM fun (description, source) => do
    return DecompositionStep.mk description (← Formula.compile source)
  return ⟨combination, steps⟩

def length (decomposition : Decomposition) : Nat := decomposition.steps.length

def isEmpty (decomposition : Decomposition) : Bool := decomposition.steps.isEmpty

def sample (decomposition : Decomposition) (grid : TimeGrid) : List Series :=
  decomposition.steps.map fun step => Series.sample step.program.evaluate grid

def accumulate (totals : List Float) (step : DecompositionStep) (ts : List Float) : List Float :=
  List.zipWith (· + ·) totals (step.program.evaluateAll ts)

/--
The values that the steps give to the signal at some instants. A sum starts from zero and takes the
steps in order; without steps the values are zero.
-/
def recombine (decomposition : Decomposition) (ts : List Float) : List Float :=
  let zeros := List.replicate ts.length (0 : Float)
  match decomposition.combination, decomposition.steps.getLast? with
  | _, none => zeros
  | .sequence, some last => last.program.evaluateAll ts
  | .sum, some _ =>
    decomposition.steps.foldl (fun totals step => accumulate totals step ts) zeros

end Decomposition

end Waveform.Catalog
