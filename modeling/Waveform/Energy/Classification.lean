/-!
# Energy and power signals

The class of a signal follows from its declared duration: a signal of finite duration is an energy
signal whatever its energy in the window, and one of infinite duration has infinite energy, so only
its average power decides. A decision takes one step from an evaluating state to a result state. A
heuristic that goes by magnitudes alone is kept apart.
-/

namespace Waveform.Energy

/-- Whether a signal vanishes outside a bounded interval. -/
inductive Duration where
  | finite
  | infinite
  deriving DecidableEq, Repr

inductive SignalClass where
  | finiteEnergy
  | finitePower
  | infinitePower
  | computationError
  deriving DecidableEq, Repr

def SignalClass.label : SignalClass → String
  | finiteEnergy => "Finite-energy signal"
  | finitePower => "Finite average power signal"
  | infinitePower => "Infinite power signal"
  | computationError => "Computation error"

/-- A class with the energy and the average power that it goes with. -/
structure Classification where
  energy : Float
  averagePower : Float
  signalClass : SignalClass
  deriving DecidableEq

namespace Classification

def infinity : Float := 1 / 0

def undefined : Float := 0 / 0

def failed : Classification := ⟨undefined, undefined, .computationError⟩

end Classification

/-! ### The decision -/

inductive Decision where
  | evaluatingFinite
  | evaluatingInfinite
  | finiteEnergy
  | finitePower
  | infinitePower
  deriving DecidableEq, Repr

namespace Decision

def start : Duration → Decision
  | .finite => evaluatingFinite
  | .infinite => evaluatingInfinite

/-- Decides by the average power. A result stays as it is. -/
def advance (decision : Decision) (averagePower : Float) : Decision :=
  match decision with
  | evaluatingFinite => finiteEnergy
  | evaluatingInfinite => if averagePower.isFinite then finitePower else infinitePower
  | result => result

def signalClass? : Decision → Option SignalClass
  | finiteEnergy => some .finiteEnergy
  | finitePower => some .finitePower
  | infinitePower => some .infinitePower
  | evaluatingFinite | evaluatingInfinite => none

def isTaken (decision : Decision) : Bool := decision.signalClass?.isSome

end Decision

/--
Classifies by declared duration. A signal of finite duration keeps its energy and has no average
power; any other has infinite energy and keeps its average power.
-/
def classify (duration : Duration) (energy averagePower : Float) : Classification :=
  match ((Decision.start duration).advance averagePower).signalClass? with
  | some .finiteEnergy => ⟨energy, 0, .finiteEnergy⟩
  | some signalClass => ⟨Classification.infinity, averagePower, signalClass⟩
  | none => .failed

@[simp] theorem classify_finite (energy averagePower : Float) :
    classify .finite energy averagePower = ⟨energy, 0, .finiteEnergy⟩ := rfl

theorem classify_infinite (energy averagePower : Float) :
    classify .infinite energy averagePower =
      ⟨Classification.infinity, averagePower,
        if averagePower.isFinite then .finitePower else .infinitePower⟩ := by
  cases hfinite : averagePower.isFinite <;>
    simp [classify, Decision.start, Decision.advance, Decision.signalClass?, hfinite]

/--
Classifies by magnitude: an energy signal if the energy is finite and below the threshold, else a
signal of finite power if that holds of the average power.
-/
def classifyByMagnitude (energy averagePower threshold : Float) : Classification :=
  let signalClass : SignalClass :=
    if energy.isFinite && energy < threshold then .finiteEnergy
    else if averagePower.isFinite && averagePower < threshold then .finitePower
    else .infinitePower
  ⟨energy, averagePower, signalClass⟩

end Waveform.Energy
