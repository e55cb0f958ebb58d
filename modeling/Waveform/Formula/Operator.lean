/-!
# Binary operators

The five arithmetic operators of formulas, over any numbers that have them. Formulas run over
binary64 numbers, where a division by zero is an infinity or not a number, never a failure.
-/

namespace Waveform.Formula

inductive Operator where
  | add
  | sub
  | mul
  | div
  | pow
  deriving DecidableEq, Repr

namespace Operator

/-- The spelling used when a formula is written out. -/
def symbol : Operator → String
  | add => "+"
  | sub => "-"
  | mul => "*"
  | div => "/"
  | pow => "**"

def all : List Operator := [add, sub, mul, div, pow]

def ofSymbol? (symbol : String) : Option Operator := all.find? (·.symbol == symbol)

@[simp] theorem ofSymbol?_symbol (operator : Operator) :
    ofSymbol? operator.symbol = some operator := by
  cases operator <;> rfl

def isAdditive : Operator → Bool
  | add | sub => true
  | _ => false

def isMultiplicative : Operator → Bool
  | mul | div => true
  | _ => false

def apply {α : Type} [Add α] [Sub α] [Mul α] [Div α] [Pow α α] : Operator → α → α → α
  | add, left, right => left + right
  | sub, left, right => left - right
  | mul, left, right => left * right
  | div, left, right => left / right
  | pow, left, right => left ^ right

end Operator

end Waveform.Formula
