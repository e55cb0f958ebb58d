import Waveform.Analysis
import Waveform.Catalog.Batch
import Waveform.Catalog.Standard
import Waveform.Energy.Display
import Waveform.Formula.Cache
import Waveform.Formula.Help
import Waveform.Sampling.Derivative
import Waveform.Proofs.Formula.Grammar
import Waveform.Proofs.Formula.Reading
import Waveform.Proofs.Formula.Outcome
import Waveform.Proofs.Formula.Acceptance
import Waveform.Proofs.Formula.Lexing
import Waveform.Proofs.Formula.Runs
import Waveform.Proofs.Decimal.Bits
import Waveform.Proofs.Decimal.Interval
import Waveform.Proofs.Decimal.Rounding
import Waveform.Proofs.Decimal.Arithmetic
import Waveform.Proofs.Decimal.Numeral
import Waveform.Proofs.Decimal.Shortest
import Waveform.Proofs.Decimal.Signs
import Waveform.Proofs.Formula.Rendering
import Waveform.Proofs.Formula.RoundTrip
import Waveform.Proofs.Formula.Caching
import Waveform.Proofs.Formula.Splicing
import Waveform.Proofs.Formula.Correspondence
import Waveform.Proofs.Formula.WrittenOut
import Waveform.Proofs.Formula.Matching
import Waveform.Proofs.Formula.Blanks
import Waveform.Proofs.Formula.Cutting
import Waveform.Proofs.Formula.Unreadable
import Waveform.Proofs.Formula.Aliases
import Waveform.Proofs.Formula.Viability
import Waveform.Proofs.Formula.Blame
import Waveform.Proofs.Formula.Offending
import Waveform.Proofs.Catalog.Registering
import Waveform.Proofs.Catalog.Reporting
import Waveform.Proofs.Sampling.Checking
import Waveform.Proofs.Analysis.Consistency
import Waveform.Proofs.Analysis.Agreement
import Waveform.Proofs.Energy.Exposure
import Waveform.Proofs.Energy.Composite
import Waveform.Proofs.Energy.Exactness
import Waveform.Proofs.Formula.NodeLimit
import Waveform.Proofs.Catalog.Recombination
import Waveform.Proofs.Catalog.StepSamples
import Waveform.Proofs.Decimal.Order
import Waveform.Proofs.Decimal.Monotone
import Waveform.Proofs.Decimal.Operations
import Waveform.Proofs.Sampling.Spacing
import Waveform.Proofs.Sampling.Ends
import Waveform.Proofs.Catalog.Summarizing
import Waveform.Proofs.Formula.Dependence
import Waveform.Proofs.Sampling.Differences
import Waveform.Proofs.Formula.Counting
import Waveform.Proofs.Formula.Bookkeeping
import Waveform.Proofs.Decimal.Notation
import Waveform.Proofs.Decimal.Digits
import Waveform.Proofs.Energy.Shown
import Waveform.Proofs.Formula.Activation
import Waveform.Proofs.Formula.Recursion
import Waveform.Proofs.Formula.Termination
