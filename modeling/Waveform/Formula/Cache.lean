import Waveform.Formula.Program
import Waveform.Table

/-!
# A cache of programs

Programs are kept under the exact text they were compiled from, so a changed formula is compiled
anew. Formulas that do not compile are not kept.
-/

namespace Waveform.Formula

/-- Programs compiled under one node limit. -/
structure Cache where
  maxNodes : Nat
  programs : Table Program.source

namespace Cache

def empty (maxNodes : Nat) : Cache := ⟨maxNodes, Table.empty⟩

def size (cache : Cache) : Nat := cache.programs.size

def isEmpty (cache : Cache) : Bool := cache.programs.isEmpty

/-- The program of a formula, compiled and kept if it is not there yet. -/
def getOrCompile (cache : Cache) (source : String) : Except FormulaError Program × Cache :=
  match cache.programs.get? source with
  | some program => (.ok program, cache)
  | none =>
    match compileWith source cache.maxNodes with
    | .ok program => (.ok program, { cache with programs := cache.programs.insert program })
    | .error error => (.error error, cache)

/-- The program of a formula, if it is there, and the cache without it. -/
def invalidate (cache : Cache) (source : String) : Option Program × Cache :=
  (cache.programs.get? source, { cache with programs := cache.programs.erase source })

def clear (cache : Cache) : Cache := { cache with programs := Table.empty }

end Cache

end Waveform.Formula
