import Waveform.Catalog.Signal
import Waveform.Table

/-!
# Catalogs of signals

Named signals in the order in which their names were first registered. Registering a name again
replaces its signal and with it the decomposition.
-/

namespace Waveform

open Waveform.Energy

/-- Signals with distinct names, in order of first registration. -/
abbrev Catalog := Table Catalog.Signal.name

namespace Catalog

def empty : Catalog := Table.empty

/-- Compiles and adds a signal, in the place of one of the same name if there is one. -/
def register (catalog : Catalog) (name formula : String) (duration : Duration) : Catalog :=
  catalog.insert (Signal.ofFormula name formula duration)

/-- Gives a signal a decomposition; tells whether there is a signal of that name. -/
def setDecomposition (catalog : Catalog) (name : String) (decomposition : Decomposition) :
    Bool × Catalog :=
  ((catalog.get? name).isSome,
    catalog.modify name (·.withDecomposition decomposition) fun _ => rfl)

end Catalog

end Waveform
