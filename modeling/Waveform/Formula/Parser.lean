import Waveform.Formula.Expr
import Waveform.Formula.ParseError

/-!
# Parsing

The grammar, from the loosest to the tightest binding:

* a sum is products joined by `+` and `-`, from the left;
* a product is powers joined by `*` and `/`, from the left;
* a power is an operand, alone or raised by `**` to a power;
* an operand is a primary with at most one minus sign;
* a primary is a number, time, a constant, a call of a function with one sum as its argument, or a
  sum in parentheses.

A group, an argument and an exponent each open a level of nesting. Each rule is a function of the
rules for what it contains, and `power` ties the knot by recursion on the levels that are left, so
the depth of the recursion never depends on the length of the formula. Every rule that succeeds
leaves fewer tokens than it was given, which is what ends the loops.
-/

namespace Waveform.Formula.Parser

/-- How many levels of nesting a formula may open, the whole formula being the first. -/
def maxNesting : Nat := 256

def maxHeight : Nat := 2048

def defaultMaxNodes : Nat := 4096

/-- What all rules of one parse know: the node limit and where the text ends. -/
structure Setting where
  maxNodes : Nat
  endPosition : Nat

/-- The tokens still to be read and the number of nodes made so far. -/
structure Cursor where
  rest : List (Placed Token)
  nodes : Nat

/-- A subtree and its height, read by moving a cursor forward. -/
structure Step (start : Cursor) where
  tree : Expr
  height : Nat
  next : Cursor
  shorter : next.rest.length < start.rest.length

/-! ### Moving forward -/

theorem Cursor.shorter_of_cons {start : Cursor} {token : Placed Token} {rest : List (Placed Token)}
    (hrest : start.rest = token :: rest) : rest.length < start.rest.length := by
  rw [hrest]
  exact Nat.lt_succ_self _

theorem Cursor.shorter_of_cons_cons {start : Cursor} {first second : Placed Token}
    {rest : List (Placed Token)} (hrest : start.rest = first :: second :: rest) :
    rest.length < start.rest.length := by
  rw [hrest]
  exact Nat.lt_succ_of_lt (Nat.lt_succ_self _)

theorem Step.shorter_of_cons {start : Cursor} (step : Step start) {token : Placed Token}
    {rest : List (Placed Token)} (hrest : step.next.rest = token :: rest) :
    rest.length < start.rest.length :=
  Nat.lt_trans (Cursor.shorter_of_cons hrest) step.shorter

/-- The same step from a cursor that has more tokens to read. -/
def Step.from {start : Cursor} (step : Step start) (before : Cursor)
    (shorter : start.rest.length < before.rest.length) : Step before :=
  ⟨step.tree, step.height, step.next, Nat.lt_trans step.shorter shorter⟩

/-! ### Limits and faults -/

abbrev Rule := (start : Cursor) → Except ParseError (Step start)

/-- The place of the next token, at the end of the tokens that of the last one. -/
def Setting.position (setting : Setting) : List (Placed Token) → Nat
  | token :: _ => token.position
  | [] => setting.endPosition

def Setting.fault (setting : Setting) (rest : List (Placed Token)) (fault : SyntaxFault) :
    ParseError :=
  .malformed (setting.position rest) fault

def Setting.count (setting : Setting) (nodes : Nat) : Except ParseError Nat :=
  if nodes < setting.maxNodes then .ok (nodes + 1) else .error (.tooComplex setting.maxNodes)

def heightAbove (height : Nat) : Except ParseError Nat :=
  if height < maxHeight then .ok (height + 1) else .error (.tooComplex maxHeight)

/-- The rule for what would open a level too many. -/
def tooDeep : Rule := fun _ => .error (.tooComplex maxNesting)

/-! ### Primaries -/

def leaf (setting : Setting) (tree : Expr) (start : Cursor) (rest : List (Placed Token))
    (shorter : rest.length < start.rest.length) : Except ParseError (Step start) := do
  let nodes ← setting.count start.nodes
  return ⟨tree, 1, ⟨rest, nodes⟩, shorter⟩

/-- A name that is not followed by a parenthesis: time or a constant. -/
def named (setting : Setting) (name : String) (start : Cursor) (rest : List (Placed Token))
    (shorter : rest.length < start.rest.length) : Except ParseError (Step start) :=
  if name = timeName then leaf setting .time start rest shorter
  else match Constant.ofName? name with
    | some constant => leaf setting (.literal constant.value) start rest shorter
    | none =>
      if (Elementary.ofName? name).isSome then
        .error (setting.fault start.rest (.uncalledFunction name))
      else .error (.unknownIdentifier name)

structure Arguments (start : Cursor) where
  trees : List (Expr × Nat)
  next : Cursor
  shorter : next.rest.length < start.rest.length

/-- One or more arguments with commas between them, and the closing parenthesis. -/
def arguments (setting : Setting) (group : Rule) (name : String) (start : Cursor) :
    Except ParseError (Arguments start) := do
  let argument ← group start
  match hrest : argument.next.rest with
  | ⟨.comma, _⟩ :: rest =>
    let others ← arguments setting group name ⟨rest, argument.next.nodes⟩
    return ⟨(argument.tree, argument.height) :: others.trees, others.next,
      Nat.lt_trans others.shorter (argument.shorter_of_cons hrest)⟩
  | ⟨.closeParen, _⟩ :: rest =>
    return ⟨[(argument.tree, argument.height)], ⟨rest, argument.next.nodes⟩,
      argument.shorter_of_cons hrest⟩
  | rest => throw (setting.fault rest (.unclosedCall name))
termination_by start.rest.length
decreasing_by exact argument.shorter_of_cons hrest

def argumentList (setting : Setting) (group : Rule) (name : String) (start : Cursor) :
    Except ParseError (Arguments start) :=
  match hrest : start.rest with
  | ⟨.closeParen, _⟩ :: rest =>
    .ok ⟨[], ⟨rest, start.nodes⟩, Cursor.shorter_of_cons hrest⟩
  | _ => arguments setting group name start

def call (setting : Setting) (group : Rule) (name : String) (start : Cursor) :
    Except ParseError (Step start) :=
  match Elementary.ofName? name with
  | none => .error (.unknownFunction name)
  | some function => do
    let arguments ← argumentList setting group name start
    match arguments.trees with
    | [(argument, height)] =>
      let nodes ← setting.count arguments.next.nodes
      let height ← heightAbove height
      return ⟨.call function argument, height, ⟨arguments.next.rest, nodes⟩, arguments.shorter⟩
    | trees => throw (.arityMismatch name Elementary.arity trees.length)

/-- A primary, given the rule for a sum one level deeper. -/
def primary (setting : Setting) (group : Rule) : Rule := fun start =>
  match hstart : start.rest with
  | ⟨.number value, _⟩ :: rest =>
    leaf setting (.literal value) start rest (Cursor.shorter_of_cons hstart)
  | ⟨.openParen, _⟩ :: rest => do
    let inner ← group ⟨rest, start.nodes⟩
    match hinner : inner.next.rest with
    | ⟨.closeParen, _⟩ :: after =>
      return ⟨inner.tree, inner.height, ⟨after, inner.next.nodes⟩,
        Nat.lt_trans (inner.shorter_of_cons hinner) (Cursor.shorter_of_cons hstart)⟩
    | after => throw (setting.fault after .unclosedGroup)
  | ⟨.name name, _⟩ :: ⟨.openParen, _⟩ :: rest => do
    let step ← call setting group name ⟨rest, start.nodes⟩
    return step.from start (Cursor.shorter_of_cons_cons hstart)
  | ⟨.name name, _⟩ :: rest => named setting name start rest (Cursor.shorter_of_cons hstart)
  | ⟨.closeParen, _⟩ :: _ => .error (setting.fault start.rest .unexpectedClose)
  | ⟨.comma, _⟩ :: _ => .error (setting.fault start.rest .unexpectedComma)
  | ⟨.operator operator, _⟩ :: _ =>
    .error (setting.fault start.rest (.unexpectedOperator operator))
  | ⟨.finish, _⟩ :: _ | [] => .error (setting.fault start.rest .unexpectedEnd)

/-! ### Operators -/

/--
A primary with at most one minus sign. Only a literal is negated in place; the product with `-1`
that negates any other tree costs two nodes and one level of height.
-/
def operand (setting : Setting) (group : Rule) : Rule := fun start =>
  match hstart : start.rest with
  | ⟨.operator .sub, _⟩ :: rest => do
    let inner ← primary setting group ⟨rest, start.nodes⟩
    have shorter := Nat.lt_trans inner.shorter (Cursor.shorter_of_cons hstart)
    if inner.tree.isLiteral then
      return ⟨inner.tree.negated, inner.height, inner.next, shorter⟩
    else
      let nodes ← setting.count inner.next.nodes
      let nodes ← setting.count nodes
      let height ← heightAbove (max 1 inner.height)
      return ⟨inner.tree.negated, height, ⟨inner.next.rest, nodes⟩, shorter⟩
  | _ => primary setting group start

/-- An operand, alone or raised to an exponent one level deeper. -/
def powerOf (setting : Setting) (group exponent : Rule) : Rule := fun start => do
  let base ← operand setting group start
  match hrest : base.next.rest with
  | ⟨.operator .pow, _⟩ :: rest =>
    let raised ← exponent ⟨rest, base.next.nodes⟩
    let nodes ← setting.count raised.next.nodes
    let height ← heightAbove (max base.height raised.height)
    return ⟨.binary .pow base.tree raised.tree, height, ⟨raised.next.rest, nodes⟩,
      Nat.lt_trans raised.shorter (base.shorter_of_cons hrest)⟩
  | _ => return base

/-- Joins what has been read with further operands, as long as a fitting operator follows. -/
def joinFrom (setting : Setting) (fits : Operator → Bool) (item : Rule) {start : Cursor}
    (left : Step start) : Except ParseError (Step start) :=
  match hrest : left.next.rest with
  | ⟨.operator operator, _⟩ :: rest =>
    if fits operator then do
      let right ← item ⟨rest, left.next.nodes⟩
      let nodes ← setting.count right.next.nodes
      let height ← heightAbove (max left.height right.height)
      joinFrom setting fits item
        ⟨.binary operator left.tree right.tree, height, ⟨right.next.rest, nodes⟩,
          Nat.lt_trans right.shorter (left.shorter_of_cons hrest)⟩
    else .ok left
  | _ => .ok left
termination_by left.next.rest.length
decreasing_by exact Nat.lt_trans right.shorter (Cursor.shorter_of_cons hrest)

def joined (setting : Setting) (fits : Operator → Bool) (item : Rule) : Rule := fun start => do
  joinFrom setting fits item (← item start)

def sumOf (setting : Setting) (power : Rule) : Rule :=
  joined setting Operator.isAdditive (joined setting Operator.isMultiplicative power)

/-- A power that may open `levels` levels of nesting below itself. -/
def power (setting : Setting) : Nat → Rule
  | 0 => powerOf setting tooDeep tooDeep
  | levels + 1 => powerOf setting (sumOf setting (power setting levels)) (power setting levels)

def formula (setting : Setting) : Rule := sumOf setting (power setting (maxNesting - 1))

/-! ### Whole formulas -/

def atEnd : List (Placed Token) → Bool
  | [] | ⟨.finish, _⟩ :: _ => true
  | _ => false

/--
The tree of a whole formula and its number of nodes. Tokens after the first end are not looked at,
and a sequence without an end is taken to end after its last token.
-/
def parse (tokens : List (Placed Token)) (maxNodes : Nat) : Except ParseError (Expr × Nat) := do
  let setting : Setting := ⟨maxNodes, (tokens.getLast?.map (·.position)).getD 0⟩
  if atEnd tokens then throw (setting.fault tokens .emptyFormula)
  let root ← formula setting ⟨tokens, 0⟩
  match root.next.rest with
  | ⟨.closeParen, _⟩ :: _ => throw (setting.fault root.next.rest .unmatchedClose)
  | rest =>
    if atEnd rest then return (root.tree, root.next.nodes)
    else throw (setting.fault rest .trailingInput)

end Waveform.Formula.Parser
