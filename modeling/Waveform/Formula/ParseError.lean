import Waveform.Formula.Lexeme

/-!
# Rejected formulas

The causes for which a formula is rejected, and the reports that users see. A fault of syntax also
has a place, which is that of the token it is noticed at.
-/

namespace Waveform.Formula

/-- What is wrong with the sequence of tokens. -/
inductive SyntaxFault where
  | emptyFormula
  | unexpectedEnd
  | unexpectedClose
  | unexpectedComma
  | unexpectedOperator (operator : Operator)
  | unclosedGroup
  | unclosedCall (name : String)
  | uncalledFunction (name : String)
  | unmatchedClose
  | trailingInput
  deriving DecidableEq, Repr

namespace SyntaxFault

def message : SyntaxFault → String
  | emptyFormula => "empty formula"
  | unexpectedEnd => "unexpected end of formula"
  | unexpectedClose => "unexpected ')'"
  | unexpectedComma => "unexpected ','"
  | unexpectedOperator operator => s!"unexpected operator '{operator.symbol}'"
  | unclosedGroup => "expected ')'"
  | unclosedCall name => s!"expected ',' or ')' in call to '{name}'"
  | uncalledFunction name => s!"function '{name}' must be called with an argument"
  | unmatchedClose => "unmatched ')'"
  | trailingInput => "unexpected trailing input"

end SyntaxFault

/-- Why a sequence of tokens is not a formula, or is a formula beyond the limits. -/
inductive ParseError where
  | unknownFunction (name : String)
  | arityMismatch (name : String) (expected found : Nat)
  | unknownIdentifier (name : String)
  | malformed (position : Nat) (fault : SyntaxFault)
  | tooComplex (limit : Nat)
  deriving DecidableEq, Repr

namespace ParseError

def message : ParseError → String
  | unknownFunction name => s!"Unknown function: {name}"
  | arityMismatch name expected found =>
    s!"Function '{name}' expects {expected} argument(s), got {found}"
  | unknownIdentifier name => s!"Unknown identifier: {name}"
  | malformed position fault => s!"Syntax error at position {position}: {fault.message}"
  | tooComplex limit => s!"Formula is too complex (limit: {limit})"

end ParseError

inductive FormulaError where
  | unreadable (fault : UnreadableCharacter)
  | rejected (error : ParseError)
  deriving DecidableEq, Repr

def FormulaError.message : FormulaError → String
  | unreadable fault => fault.message
  | rejected error => error.message

end Waveform.Formula
