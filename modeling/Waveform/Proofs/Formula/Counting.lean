import Waveform.Proofs.Formula.RoundTrip

/-!
# Parsing by position

The rules of the grammar for a machine that keeps all tokens and moves a position along them, and
that counts the levels of nesting that are open and the nodes made so far. `advance`, `descend`,
`ascend` and `countNode` are its only steps, and each rule is written with them alone.

What must not go wrong in the bookkeeping is made visible as an end of its own, beside the errors
of formulas: a level is closed while none is open, a loop goes on without having moved forward, a
level is opened without fuel. That none of these ends is ever reached is proved with the machine's
agreement with the rules of the parser.
-/

namespace Waveform.Formula.Parser.Counting

/-! ### The machine -/

/-- Where a parse stands: the place in the sequence of tokens and the two counters. -/
structure Counters where
  position : Nat
  depth : Nat
  nodes : Nat

/-- How a routine ends without a tree. Only the first of these is due to the formula. -/
inductive Halt where
  | rejected (error : ParseError)
  /-- A level was closed while none was open. -/
  | underflow
  /-- A loop went on without having moved forward. -/
  | stalled
  /-- A level was opened without fuel. -/
  | exhausted
  deriving DecidableEq

/-- A subtree with its height, and where it leaves the parse. -/
structure Reading where
  tree : Expr
  height : Nat
  after : Counters

abbrev Routine := Counters → Except Halt Reading

def reject {α : Type} (error : ParseError) : Except Halt α := .error (.rejected error)

section

variable (tokens : List (Placed Token)) (maxNodes : Nat)

/-- The token at the position. Behind the last token stands the end. -/
def peek (state : Counters) : Token :=
  (tokens[state.position]?.map (·.value)).getD .finish

/-- The place in the text of the token at the position, or else that of the last token. -/
def place (state : Counters) : Nat :=
  ((tokens[state.position]?.or tokens.getLast?).map (·.position)).getD 0

def fault (state : Counters) (fault : SyntaxFault) : ParseError :=
  .malformed (place tokens state) fault

def advance (state : Counters) : Counters :=
  if state.position < tokens.length then { state with position := state.position + 1 } else state

def descend (state : Counters) : Except Halt Counters :=
  if maxNesting < state.depth + 1 then reject (.tooComplex maxNesting)
  else .ok { state with depth := state.depth + 1 }

def ascend (state : Counters) : Except Halt Counters :=
  match state.depth with
  | 0 => .error .underflow
  | depth + 1 => .ok { state with depth := depth }

def countNode (state : Counters) : Except Halt Counters :=
  if maxNodes < state.nodes + 1 then reject (.tooComplex maxNodes)
  else .ok { state with nodes := state.nodes + 1 }

def leaf (tree : Expr) : Routine := fun state => do
  let state ← countNode maxNodes state
  return ⟨tree, 1, state⟩

def raise (height : Nat) : Except Halt Nat :=
  if maxHeight < height + 1 then reject (.tooComplex maxHeight) else .ok (height + 1)

def branch (tree : Expr) (height : Nat) : Routine := fun state => do
  let state ← countNode maxNodes state
  let height ← raise height
  return ⟨tree, height, state⟩

def binary (operator : Operator) (left right : Reading) : Except Halt Reading :=
  branch maxNodes (.binary operator left.tree right.tree) (max left.height right.height)
    right.after

/-- Whether a loop has moved forward, but not past the end. -/
abbrev Forward (before after : Counters) : Prop :=
  before.position < after.position ∧ after.position ≤ tokens.length

theorem Forward.remaining_lt {tokens : List (Placed Token)} {before after : Counters}
    (h : Forward tokens before after) :
    tokens.length - after.position < tokens.length - before.position := by
  obtain ⟨hahead, hwithin⟩ := h
  omega

/-! ### Its routines -/

def named (name : String) (place : Nat) : Routine := fun state =>
  if name = timeName then leaf maxNodes .time state
  else match Constant.ofName? name with
    | some constant => leaf maxNodes (.literal constant.value) state
    | none =>
      if (Elementary.ofName? name).isSome then reject (.malformed place (.uncalledFunction name))
      else reject (.unknownIdentifier name)

def arguments (group : Routine) (name : String) (state : Counters) :
    Except Halt (List (Expr × Nat) × Counters) := do
  let argument ← group state
  match peek tokens argument.after with
  | .comma =>
    if _ : Forward tokens state (advance tokens argument.after) then
      let (others, after) ← arguments group name (advance tokens argument.after)
      return ((argument.tree, argument.height) :: others, after)
    else throw .stalled
  | .closeParen => return ([(argument.tree, argument.height)], advance tokens argument.after)
  | _ => reject (fault tokens argument.after (.unclosedCall name))
termination_by tokens.length - state.position
decreasing_by exact Forward.remaining_lt ‹_›

def argumentList (group : Routine) (name : String) (state : Counters) :
    Except Halt (List (Expr × Nat) × Counters) :=
  match peek tokens state with
  | .closeParen => .ok ([], advance tokens state)
  | _ => arguments tokens group name state

def call (group : Routine) (name : String) : Routine := fun state =>
  match Elementary.ofName? name with
  | none => reject (.unknownFunction name)
  | some function => do
    let (trees, after) ← argumentList tokens group name (advance tokens state)
    match trees with
    | [(argument, height)] => branch maxNodes (.call function argument) height after
    | trees => reject (.arityMismatch name Elementary.arity trees.length)

def primary (group : Routine) : Routine := fun state =>
  match peek tokens state with
  | .number value => leaf maxNodes (.literal value) (advance tokens state)
  | .openParen => do
    let inner ← group (advance tokens state)
    match peek tokens inner.after with
    | .closeParen => return { inner with after := advance tokens inner.after }
    | _ => reject (fault tokens inner.after .unclosedGroup)
  | .name name =>
    match peek tokens (advance tokens state) with
    | .openParen => call tokens maxNodes group name (advance tokens state)
    | _ => named maxNodes name (place tokens state) (advance tokens state)
  | .closeParen => reject (fault tokens state .unexpectedClose)
  | .comma => reject (fault tokens state .unexpectedComma)
  | .operator operator => reject (fault tokens state (.unexpectedOperator operator))
  | .finish => reject (fault tokens state .unexpectedEnd)

/-- A primary with at most one minus sign, which a literal takes up without a node of its own. -/
def operand (group : Routine) : Routine := fun state =>
  match peek tokens state with
  | .operator .sub => do
    let inner ← primary tokens maxNodes group (advance tokens state)
    match inner.tree with
    | .literal value => return { inner with tree := .literal (-value) }
    | tree =>
      let minusOne ← leaf maxNodes (.literal (-1)) inner.after
      binary maxNodes .mul minusOne ⟨tree, inner.height, minusOne.after⟩
  | _ => primary tokens maxNodes group state

def powerOf (group exponent : Routine) : Routine := fun state => do
  let base ← operand tokens maxNodes group state
  match peek tokens base.after with
  | .operator .pow =>
    let raised ← exponent (advance tokens base.after)
    binary maxNodes .pow base raised
  | _ => return base

def joinFrom (fits : Operator → Bool) (item : Routine) (left : Reading) : Except Halt Reading :=
  match peek tokens left.after with
  | .operator operator =>
    if fits operator then do
      let right ← item (advance tokens left.after)
      let joined ← binary maxNodes operator left right
      if _ : Forward tokens left.after joined.after then joinFrom fits item joined
      else throw .stalled
    else .ok left
  | _ => .ok left
termination_by tokens.length - left.after.position
decreasing_by exact Forward.remaining_lt ‹_›

def joined (fits : Operator → Bool) (item : Routine) : Routine := fun state => do
  joinFrom tokens maxNodes fits item (← item state)

def sumOf (power : Routine) : Routine :=
  joined tokens maxNodes Operator.isAdditive
    (joined tokens maxNodes Operator.isMultiplicative power)

/-- Opens a level, reads what is on it, and closes it. -/
def nested (inner : Routine) : Routine := fun state => do
  let reading ← inner (← descend state)
  return { reading with after := ← ascend reading.after }

/-! ### Fuel -/

def exhausted : Routine := fun _ => .error .exhausted

/-- A power below which at most `fuel` levels are opened, one within the other. -/
def power : Nat → Routine
  | 0 => powerOf tokens maxNodes exhausted exhausted
  | fuel + 1 =>
    powerOf tokens maxNodes (nested (sumOf tokens maxNodes (power fuel))) (nested (power fuel))

/-- A sum, which opens the first of `fuel` levels itself. -/
def sum : Nat → Routine
  | 0 => exhausted
  | fuel + 1 => nested (sumOf tokens maxNodes (power tokens maxNodes fuel))

/-- The routine for a part of the grammar. -/
def routine (fuel : Nat) : Category → Routine
  | .joined .additive => sum tokens maxNodes fuel
  | .joined .multiplicative =>
    joined tokens maxNodes Operator.isMultiplicative (power tokens maxNodes fuel)
  | .power => power tokens maxNodes fuel
  | .operand => operand tokens maxNodes (sum tokens maxNodes fuel)
  | .primary => primary tokens maxNodes (sum tokens maxNodes fuel)

/-- A tree is that of a whole formula if it has been read up to the end. -/
def complete (root : Reading) : Except Halt (Expr × Nat) :=
  match peek tokens root.after with
  | .finish => .ok (root.tree, root.after.nodes)
  | .closeParen => reject (fault tokens root.after .unmatchedClose)
  | _ => reject (fault tokens root.after .trailingInput)

def parse (fuel : Nat) : Except Halt (Expr × Nat) := do
  let start : Counters := ⟨0, 0, 0⟩
  match peek tokens start with
  | .finish => reject (fault tokens start .emptyFormula)
  | _ => complete tokens (← sum tokens maxNodes fuel start)

end

end Waveform.Formula.Parser.Counting
