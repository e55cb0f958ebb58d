import Waveform.Formula.Parser

/-!
# Programs

A program is a formula text that has been compiled: its tree and the number of nodes that was
counted while the tree was built.
-/

namespace Waveform.Formula

structure Program where
  source : String
  root : Expr
  nodeCount : Nat
  deriving DecidableEq

namespace Program

def dependsOnTime (program : Program) : Bool := program.root.dependsOnTime

def display (program : Program) : String := program.root.render

def evaluate (program : Program) (t : Float) : Float := program.root.eval t

def evaluateAll (program : Program) (ts : List Float) : List Float := ts.map program.evaluate

/-- Whether two programs have the same text, trees that agree and the same number of nodes. -/
def agrees (program other : Program) : Bool :=
  program.source == other.source && program.root.agrees other.root &&
    program.nodeCount == other.nodeCount

end Program

def Program.ofTokens (source : String) (tokens : List (Placed Token)) (maxNodes : Nat) :
    Except ParseError Program := do
  let (root, nodeCount) ← Parser.parse tokens maxNodes
  return ⟨source, root, nodeCount⟩

/-- Compiles a formula into at most `maxNodes` nodes. -/
def compileWith (source : String) (maxNodes : Nat) : Except FormulaError Program :=
  match tokenize source with
  | .error fault => .error (.unreadable fault)
  | .ok tokens => (Program.ofTokens source tokens maxNodes).mapError .rejected

def compile (source : String) : Except FormulaError Program :=
  compileWith source Parser.defaultMaxNodes

end Waveform.Formula
