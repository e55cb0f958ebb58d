import Mathlib.Analysis.Calculus.Deriv.Polynomial
import Mathlib.MeasureTheory.Integral.IntervalIntegral.FundThmCalculus
import Mathlib.Tactic.IntervalCases
import Mathlib.Topology.Algebra.Polynomial
import Waveform.Proofs.Energy.Composite

/-!
# The order of the composite rules

When the squares of the samples are the values of a polynomial on the grid, a rule that is exact on
one panel is exact on the whole window: the antiderivative telescopes from panel to panel. A
trapezoid is exact up to degree one and a parabola up to degree three. The antiderivative is an
algebraic one over the field of the samples; the integral over the real numbers enters at the end.
Main statement: `rules_integrate_polynomials`.
-/

namespace Waveform.Energy

open Polynomial

variable {α : Type} [Field α]

/-! ### Antiderivatives -/

noncomputable def antiderivative (q : α[X]) : α[X] :=
  q.sum fun n c => C (c / (n + 1)) * X ^ (n + 1)

theorem derivative_antiderivative [CharZero α] (q : α[X]) : derivative (antiderivative q) = q := by
  rw [antiderivative, sum_def, derivative_sum]
  conv_rhs => rw [q.as_sum_support_C_mul_X_pow]
  refine Finset.sum_congr rfl fun n _ => ?_
  have hne : (n : α) + 1 ≠ 0 := Nat.cast_add_one_ne_zero n
  rw [derivative_C_mul_X_pow, Nat.add_sub_cancel]
  push_cast
  rw [div_mul_cancel₀ _ hne]

theorem eval_of_natDegree_le {q : α[X]} (hdegree : q.natDegree ≤ 3) (x : α) :
    q.eval x = q.coeff 0 + q.coeff 1 * x + q.coeff 2 * x ^ 2 + q.coeff 3 * x ^ 3 := by
  rw [eval_eq_sum_range' (Nat.lt_succ_of_le hdegree)]
  simp [Finset.sum_range_succ]

theorem eval_antiderivative {q : α[X]} (hdegree : q.natDegree ≤ 3) (x : α) :
    (antiderivative q).eval x = q.coeff 0 * x + q.coeff 1 / 2 * x ^ 2 + q.coeff 2 / 3 * x ^ 3 +
      q.coeff 3 / 4 * x ^ 4 := by
  rw [antiderivative, sum_over_range' q (by simp) 4 (Nat.lt_succ_of_le hdegree)]
  simp only [Finset.sum_range_succ, Finset.sum_range_zero, zero_add, eval_add, eval_mul, eval_C,
    eval_pow, eval_X]
  norm_num

/-! ### One panel -/

section Panel

variable [CharZero α] {q : α[X]} {dt start a b c : α}

theorem trapezoid_exact (hdegree : q.natDegree ≤ 1) (ha : a ^ 2 = q.eval start)
    (hb : b ^ 2 = q.eval (start + dt)) :
    trapezoid dt a b =
      (antiderivative q).eval (start + dt) - (antiderivative q).eval start := by
  have hquadratic : q.coeff 2 = 0 := coeff_eq_zero_of_natDegree_lt (by omega)
  have hcubic : q.coeff 3 = 0 := coeff_eq_zero_of_natDegree_lt (by omega)
  have hleast : q.natDegree ≤ 3 := by omega
  rw [trapezoid, square, square, ← sq, ← sq, ha, hb, eval_of_natDegree_le hleast,
    eval_of_natDegree_le hleast, eval_antiderivative hleast, eval_antiderivative hleast,
    hquadratic, hcubic]
  push_cast
  ring

theorem parabola_exact (hdegree : q.natDegree ≤ 3) (ha : a ^ 2 = q.eval start)
    (hb : b ^ 2 = q.eval (start + dt)) (hc : c ^ 2 = q.eval (start + 2 * dt)) :
    parabola dt a b c =
      (antiderivative q).eval (start + 2 * dt) - (antiderivative q).eval start := by
  rw [parabola, square, square, square, ← sq, ← sq, ← sq, ha, hb, hc,
    eval_of_natDegree_le hdegree, eval_of_natDegree_le hdegree, eval_of_natDegree_le hdegree,
    eval_antiderivative hdegree, eval_antiderivative hdegree]
  push_cast
  ring

end Panel

/-! ### All panels -/

/-- The squares of the samples are the values of a polynomial on the grid of a start and a step. -/
def SquaresFollow (q : α[X]) (start dt : α) (values : List α) : Prop :=
  ∀ i < values.length, squareAt values i = q.eval (start + i * dt)

section Window

variable {q : α[X]} {dt start a b : α} {rest : List α}

theorem SquaresFollow.head (h : SquaresFollow q start dt (a :: rest)) : a ^ 2 = q.eval start := by
  simpa using h 0 (Nat.zero_lt_succ _)

theorem SquaresFollow.tail (h : SquaresFollow q start dt (a :: rest)) :
    SquaresFollow q (start + dt) dt rest := by
  intro i hi
  have hsquare := h (i + 1) (Nat.succ_lt_succ hi)
  rw [squareAt_cons_succ] at hsquare
  rw [hsquare]
  push_cast
  ring_nf

/-- The end of the window of some samples; a window without samples is its start. -/
def windowEnd (start dt : α) (values : List α) : α := start + (values.length - 1 : ℕ) * dt

theorem windowEnd_singleton (start dt a : α) : windowEnd start dt [a] = start := by
  simp [windowEnd]

theorem windowEnd_cons_cons (start dt a b : α) (rest : List α) :
    windowEnd start dt (a :: b :: rest) = windowEnd (start + dt) dt (b :: rest) := by
  simp only [windowEnd, List.length_cons, Nat.add_sub_cancel]
  push_cast
  ring

variable [CharZero α]

theorem trapezoidal_exact {values : List α} (hdegree : q.natDegree ≤ 1)
    (hvalues : SquaresFollow q start dt values) :
    trapezoidal values dt =
      (antiderivative q).eval (windowEnd start dt values) - (antiderivative q).eval start := by
  induction values generalizing start with
  | nil => simp [trapezoidal_nil, windowEnd]
  | cons a rest ih =>
    cases rest with
    | nil => rw [trapezoidal_singleton, windowEnd_singleton, sub_self]
    | cons b rest =>
      rw [trapezoidal_cons_cons, trapezoid_exact hdegree hvalues.head hvalues.tail.head,
        ih hvalues.tail, windowEnd_cons_cons]
      ring

/-- A last interval that is alone needs a degree that the trapezoid on it integrates. -/
theorem simpson_exact (hdegree : q.natDegree ≤ 3) : {values : List α} → {start : α} →
    SquaresFollow q start dt values → (values.length % 2 = 0 → q.natDegree ≤ 1) →
    simpson values dt =
      (antiderivative q).eval (windowEnd start dt values) - (antiderivative q).eval start
  | [], start, _, _ => by simp [simpson_nil, windowEnd]
  | [a], start, _, _ => by rw [simpson_singleton, windowEnd_singleton, sub_self]
  | [a, b], start, hvalues, hclosing => by
    have hpair : simpson [a, b] dt = trapezoidal [a, b] dt := if_pos (Nat.lt_succ_self 2)
    have heven : [a, b].length % 2 = 0 := by simp
    rw [hpair, trapezoidal_exact (hclosing heven) hvalues]
  | a :: b :: c :: rest, start, hvalues, hclosing => by
    have hend : start + 2 * dt = start + dt + dt := by ring
    have hthird : c ^ 2 = q.eval (start + 2 * dt) := hend ▸ hvalues.tail.tail.head
    have hrest := simpson_exact hdegree hvalues.tail.tail fun heven => hclosing (by
      simp only [List.length_cons] at heven ⊢
      omega)
    rw [simpson_cons_cons_cons, parabola_exact hdegree hvalues.head hvalues.tail.head hthird, hrest,
      windowEnd_cons_cons, windowEnd_cons_cons, hend]
    ring

end Window

/-! ### Main statement -/

/-- Over the real numbers the difference of an antiderivative is the integral. -/
theorem integral_eq_antiderivative [Algebra α ℝ] (q : α[X]) (a b : α) :
    ∫ x in algebraMap α ℝ a..algebraMap α ℝ b, aeval x q =
      algebraMap α ℝ ((antiderivative q).eval b - (antiderivative q).eval a) := by
  have : CharZero α := (algebraMap α ℝ).charZero
  rw [map_sub, ← aeval_algebraMap_apply_eq_algebraMap_eval,
    ← aeval_algebraMap_apply_eq_algebraMap_eval]
  have hcontinuous : Continuous fun x : ℝ => aeval x q := q.continuous_aeval
  have hderiv : ∀ x : ℝ, HasDerivAt (fun x => aeval x (antiderivative q)) (aeval x q) x := by
    intro x
    have hderivative := (antiderivative q).hasDerivAt_aeval x
    rwa [derivative_antiderivative] at hderivative
  exact intervalIntegral.integral_eq_sub_of_hasDerivAt (fun x _ => hderiv x)
    (hcontinuous.intervalIntegrable _ _)

/--
The rules integrate polynomials of low degree exactly, on every grid over a field of real numbers.
If the squares of the samples are the values of a polynomial, the trapezoidal rule gives its
integral over the window for a degree of one at most; Simpson's rule does so for a degree of three
at most if the number of samples is odd, and for a degree of one at most if it is even.
-/
theorem rules_integrate_polynomials [Algebra α ℝ] {q : α[X]} {start dt : α} {values : List α}
    (hvalues : SquaresFollow q start dt values) :
    let integral :=
      ∫ x in algebraMap α ℝ start..algebraMap α ℝ (windowEnd start dt values), aeval x q
    (q.natDegree ≤ 3 → values.length % 2 = 1 →
      algebraMap α ℝ (simpson values dt) = integral) ∧
    (q.natDegree ≤ 1 → algebraMap α ℝ (trapezoidal values dt) = integral) ∧
    (q.natDegree ≤ 1 → values.length % 2 = 0 →
      algebraMap α ℝ (simpson values dt) = integral) := by
  intro integral
  have : CharZero α := (algebraMap α ℝ).charZero
  have hintegral : integral = _ := integral_eq_antiderivative q start _
  refine ⟨fun hdegree hodd => ?_, fun hdegree => ?_, fun hdegree heven => ?_⟩
  · rw [hintegral, simpson_exact hdegree hvalues fun heven => by omega]
  · rw [hintegral, trapezoidal_exact hdegree hvalues]
  · rw [hintegral, simpson_exact (by omega) hvalues fun _ => hdegree]

/-- A ramp, whose squares are quadratic, and a square wave, whose squares are constant. -/
theorem rules_integrate_polynomials_ramp :
    SquaresFollow (X ^ 2 : ℚ[X]) 0 1 [0, 1, 2] ∧
    algebraMap ℚ ℝ (simpson [0, 1, 2] 1) =
      ∫ x in algebraMap ℚ ℝ 0..algebraMap ℚ ℝ (windowEnd 0 1 [0, 1, 2]), aeval x (X ^ 2 : ℚ[X]) ∧
    SquaresFollow (C 9 : ℚ[X]) 1 2 [3, -3, 3, -3] ∧
    algebraMap ℚ ℝ (trapezoidal [3, -3, 3, -3] 2) =
      (∫ x in algebraMap ℚ ℝ 1..algebraMap ℚ ℝ (windowEnd 1 2 [3, -3, 3, -3]),
        aeval x (C 9 : ℚ[X])) ∧
    algebraMap ℚ ℝ (simpson [3, -3, 3, -3] 2) =
      ∫ x in algebraMap ℚ ℝ 1..algebraMap ℚ ℝ (windowEnd 1 2 [3, -3, 3, -3]),
        aeval x (C 9 : ℚ[X]) := by
  have hramp : SquaresFollow (X ^ 2 : ℚ[X]) 0 1 [0, 1, 2] := by
    intro i hi
    simp only [List.length_cons, List.length_nil] at hi
    interval_cases i <;> norm_num [squareAt]
  have hwave : SquaresFollow (C 9 : ℚ[X]) 1 2 [3, -3, 3, -3] := by
    intro i hi
    simp only [List.length_cons, List.length_nil] at hi
    interval_cases i <;> norm_num [squareAt]
  obtain ⟨hcubic, -, -⟩ := rules_integrate_polynomials hramp
  obtain ⟨-, hlinear, hclosed⟩ := rules_integrate_polynomials hwave
  have hconstant : (C 9 : ℚ[X]).natDegree ≤ 1 := by simp
  exact ⟨hramp, hcubic (by simp) (by decide), hwave, hlinear hconstant,
    hclosed hconstant (by decide)⟩

end Waveform.Energy
