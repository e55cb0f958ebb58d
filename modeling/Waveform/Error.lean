import Waveform.Formula.ParseError
import Waveform.Sampling.Window

/-!
# Errors

Everything that can be reported to a user in place of a result. Evaluation never fails: a value
outside the range of the numbers is data. So an error means a formula that does not compile, a
request that cannot be sampled, or a signal of a batch that could not be measured.
-/

namespace Waveform

/-- The failure of one signal of a batch. -/
structure ComputationError where
  signal : String
  reason : String
  deriving DecidableEq, Repr

def ComputationError.message (error : ComputationError) : String :=
  s!"Computation failed for signal '{error.signal}': {error.reason}"

inductive Error where
  | formula (error : Formula.FormulaError)
  | precondition (error : Sampling.PreconditionError)
  | computation (error : ComputationError)
  deriving DecidableEq

namespace Error

def message : Error → String
  | formula error => error.message
  | precondition error => error.message
  | computation error => error.message

/-- Whether the text of a formula is to blame. -/
def isFormulaError : Error → Bool
  | formula _ => true
  | _ => false

end Error

end Waveform
