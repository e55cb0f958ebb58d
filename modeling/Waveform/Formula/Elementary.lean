/-!
# Elementary signals and functions

The functions of one argument that a formula may call: five elementary signals and eight functions
of analysis. Where the textbook definitions differ at a jump, a rectangle and a triangle are zero at
their ends and the unit step is one at its start.
-/

namespace Waveform.Formula

inductive Elementary where
  | rect
  | tri
  | step
  | ramp
  | delta
  | sin
  | cos
  | tan
  | exp
  | log
  | ln
  | sqrt
  | abs
  deriving DecidableEq, Repr

namespace Elementary

def pi : Float := 3.141592653589793

/-- The width of the Gaussian that stands for the Dirac impulse. -/
def impulseWidth : Float := 0.01

def rectangle (t : Float) : Float := if t.abs < 0.5 then 1 else 0

def triangle (t : Float) : Float := if t.abs < 1 then 1 - t.abs else 0

def unitStep (t : Float) : Float := if t ≥ 0 then 1 else 0

def unitRamp (t : Float) : Float := if t > 0 then t else 0

/-- A Gaussian of area one in place of the Dirac impulse. -/
def impulse (t : Float) : Float :=
  let scaled := t / impulseWidth
  1 / (impulseWidth * (2 * pi).sqrt) * (-0.5 * (scaled * scaled)).exp

/-- The value of a function. Outside its domain that is not a number, at a pole an infinity. -/
def apply : Elementary → Float → Float
  | rect => rectangle
  | tri => triangle
  | step => unitStep
  | ramp => unitRamp
  | delta => impulse
  | sin => Float.sin
  | cos => Float.cos
  | tan => Float.tan
  | exp => Float.exp
  | log | ln => Float.log
  | sqrt => Float.sqrt
  | abs => Float.abs

/-- The name by which formulas call a function. -/
def name : Elementary → String
  | rect => "rect"
  | tri => "tri"
  | step => "u"
  | ramp => "ramp"
  | delta => "delta"
  | sin => "sin"
  | cos => "cos"
  | tan => "tan"
  | exp => "exp"
  | log => "log"
  | ln => "ln"
  | sqrt => "sqrt"
  | abs => "abs"

/-- Whether a function is an elementary signal rather than a function of analysis. -/
def isSignal : Elementary → Bool
  | rect | tri | step | ramp | delta => true
  | _ => false

def all : List Elementary :=
  [rect, tri, step, ramp, delta, sin, cos, tan, exp, log, ln, sqrt, abs]

def ofName? (name : String) : Option Elementary := all.find? (·.name == name)

@[simp] theorem ofName?_name (function : Elementary) : ofName? function.name = some function := by
  cases function <;> rfl

theorem name_of_ofName? {name : String} {function : Elementary}
    (h : ofName? name = some function) : function.name = name := by
  simpa using List.find?_some h

def arity : Nat := 1

end Elementary

inductive Constant where
  | pi
  | e
  deriving DecidableEq, Repr

namespace Constant

def name : Constant → String
  | pi => "pi"
  | e => "e"

def value : Constant → Float
  | pi => Elementary.pi
  | e => 2.718281828459045

def all : List Constant := [pi, e]

def ofName? (name : String) : Option Constant := all.find? (·.name == name)

@[simp] theorem ofName?_name (constant : Constant) : ofName? constant.name = some constant := by
  cases constant <;> rfl

theorem name_of_ofName? {name : String} {constant : Constant}
    (h : ofName? name = some constant) : constant.name = name := by
  simpa using List.find?_some h

end Constant

/-- The name of the free variable, time. -/
def timeName : String := "t"

end Waveform.Formula
