import Waveform.Formula.Operator
import Waveform.Formula.Elementary
import Waveform.Decimal.Text

/-!
# Expressions

The tree of a formula: its size and height, whether it depends on time, how it is written out with
every operation in parentheses, and its value at an instant. The value is defined over any domain
of numbers; formulas run over binary64 numbers.
-/

namespace Waveform.Formula

/-- A formula as a tree. Constants are literals; time is the only variable. -/
inductive Expr where
  | literal (value : Float)
  | time
  | call (function : Elementary) (argument : Expr)
  | binary (operator : Operator) (left right : Expr)
  deriving DecidableEq

namespace Expr

def size : Expr → Nat
  | literal _ | time => 1
  | call _ argument => argument.size + 1
  | binary _ left right => left.size + right.size + 1

def height : Expr → Nat
  | literal _ | time => 1
  | call _ argument => argument.height + 1
  | binary _ left right => max left.height right.height + 1

def dependsOnTime : Expr → Bool
  | literal _ => false
  | time => true
  | call _ argument => argument.dependsOnTime
  | binary _ left right => left.dependsOnTime || right.dependsOnTime

/--
Whether two trees have the same shape and equal literals. Literals are compared as numbers, so zero
equals negative zero and what is not a number equals nothing.
-/
def agrees : Expr → Expr → Bool
  | literal value, literal other => value == other
  | time, time => true
  | call function argument, call function' argument' =>
    function == function' && argument.agrees argument'
  | binary operator left right, binary operator' left' right' =>
    operator == operator' && left.agrees left' && right.agrees right'
  | _, _ => false

def isLiteral : Expr → Bool
  | literal _ => true
  | _ => false

/-- The negative of a tree: a literal changes its sign, any other tree is multiplied by `-1`. -/
def negated : Expr → Expr
  | literal value => literal (-value)
  | tree => binary .mul (literal (-1)) tree

theorem negated_of_ne_literal {tree : Expr} (hother : ∀ value, tree ≠ literal value) :
    tree.negated = binary .mul (literal (-1)) tree := by
  cases tree with
  | literal value => exact absurd rfl (hother value)
  | time | call | binary => rfl

/-! ### Writing -/

/-- The tree in text, every operation in parentheses: `(2 * rect(t))`. -/
def render : Expr → String
  | literal value => Decimal.shortestPositional value
  | time => timeName
  | call function argument => function.name ++ "(" ++ argument.render ++ ")"
  | binary operator left right =>
    "(" ++ left.render ++ " " ++ operator.symbol ++ " " ++ right.render ++ ")"

/-! ### Values -/

/-- What literals and functions mean in a domain of numbers. -/
structure Semantics (α : Type) where
  literal : Float → α
  call : Elementary → α → α

def Semantics.binary64 : Semantics Float where
  literal := id
  call := Elementary.apply

/-- The value of a tree at the instant `t`, with the operators of the domain. -/
def evalIn {α : Type} [Add α] [Sub α] [Mul α] [Div α] [Pow α α] (meaning : Semantics α) (t : α) :
    Expr → α
  | literal value => meaning.literal value
  | time => t
  | call function argument => meaning.call function (argument.evalIn meaning t)
  | binary operator left right =>
    operator.apply (left.evalIn meaning t) (right.evalIn meaning t)

def eval (tree : Expr) (t : Float) : Float := tree.evalIn .binary64 t

@[simp] theorem eval_literal (value t : Float) : (literal value).eval t = value := rfl

@[simp] theorem eval_time (t : Float) : time.eval t = t := rfl

@[simp] theorem eval_call (function : Elementary) (argument : Expr) (t : Float) :
    (call function argument).eval t = function.apply (argument.eval t) := rfl

@[simp] theorem eval_binary (operator : Operator) (left right : Expr) (t : Float) :
    (binary operator left right).eval t = operator.apply (left.eval t) (right.eval t) := rfl

end Expr

end Waveform.Formula
