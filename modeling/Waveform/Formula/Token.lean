import Waveform.Formula.Operator

/-!
# Tokens

The units that the grammar of formulas speaks about, each with the place where it starts. A place
is counted in characters of the text as it was given, blank ones included.
-/

namespace Waveform.Formula

/-- A value and the place in the text where it starts. -/
structure Placed (α : Type) where
  value : α
  position : Nat
  deriving DecidableEq, Repr

/-- A unit of the grammar. The end of the formula is a token of its own. -/
inductive Token where
  | number (value : Float)
  | name (letters : String)
  | operator (operator : Operator)
  | openParen
  | closeParen
  | comma
  | finish
  deriving DecidableEq

/-- The neighbours between which a multiplication is understood: `2t`, `2(t)`, `(t)2`, `(t)(t)`. -/
def Token.impliesProduct : Token → Token → Bool
  | .number _, .name _ | .number _, .openParen => true
  | .closeParen, .number _ | .closeParen, .openParen => true
  | _, _ => false

/-- Writes out each understood multiplication, at the place of its right operand. -/
def withProducts : List (Placed Token) → List (Placed Token)
  | left :: right :: rest =>
    if left.value.impliesProduct right.value then
      left :: ⟨.operator .mul, right.position⟩ :: withProducts (right :: rest)
    else left :: withProducts (right :: rest)
  | tokens => tokens

end Waveform.Formula
