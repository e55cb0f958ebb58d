import Waveform.Formula.Elementary

/-!
# Help for writing formulas

Short descriptions of what formulas may call, and formulas to start from.
-/

namespace Waveform.Formula

/-- How to write a call, or several of a kind, and what it means. -/
structure HelpEntry where
  usage : String
  description : String
  deriving DecidableEq, Repr

def signalHelp : List HelpEntry :=
  [⟨"rect(t)", "Rectangle (1 if |t| < 0.5)"⟩,
    ⟨"tri(t)", "Triangle (1 - |t| if |t| < 1)"⟩,
    ⟨"u(t)", "Unit step (1 if t >= 0)"⟩,
    ⟨"delta(t)", "Dirac impulse (Gaussian approximation, width 0.01)"⟩,
    ⟨"ramp(t)", "Ramp (t if t > 0)"⟩]

def analysisHelp : List HelpEntry :=
  [⟨"sin, cos, tan", "Trigonometry"⟩,
    ⟨"exp, log, ln, sqrt", "Exponential / natural log / square root"⟩,
    ⟨"abs", "Absolute value"⟩]

def help : List HelpEntry := signalHelp ++ analysisHelp

def exampleFormulas : List String :=
  ["2*rect(2*t-1)", "sin(pi*t)*rect(t/2)", "tri(2*t)", "u(t-2)", "exp(-t)*u(t)",
    "2*sin(3*t) + cos(t)", "abs(sin(2*pi*t))"]

end Waveform.Formula
