import Mathlib.Algebra.BigOperators.Ring.Finset
import Mathlib.Algebra.Field.Basic
import Mathlib.Tactic.Ring
import Waveform.Energy.Quadrature

/-!
# The composite rules in exact arithmetic

Over a field both rules are sums with one term for each interval between adjacent samples. The
trapezoidal rule weighs the squares of both ends alike. Simpson's rule takes the intervals in pairs,
which gives the weights 1, 4, 2, 4, …, 2, 4, 1, and closes a last interval that is alone with a
trapezoid. Every interval is covered exactly once, so the energies of the two parts of a signal that
is cut at a sample add up to that of the whole; a cut for Simpson's rule has to fall between two of
its pairs. Main statement: `rules_cover_every_interval`.
-/

namespace Waveform.Energy

open Finset

variable {α : Type} [Field α] {dt : α}

/-! ### Weighted sums -/

/-- The square of the sample at a place, zero behind the last sample. -/
def squareAt (values : List α) (i : ℕ) : α := values.getD i 0 ^ 2

@[simp] theorem squareAt_cons_zero (a : α) (rest : List α) : squareAt (a :: rest) 0 = a ^ 2 := rfl

@[simp] theorem squareAt_cons_succ (a : α) (rest : List α) (i : ℕ) :
    squareAt (a :: rest) (i + 1) = squareAt rest i := rfl

theorem squareAt_drop (values : List α) (k i : ℕ) :
    squareAt (values.drop k) i = squareAt values (k + i) := by
  rw [squareAt, squareAt, List.getD_eq_getElem?_getD, List.getElem?_drop,
    ← List.getD_eq_getElem?_getD]

/-- The weight of Simpson's rule for one of an odd number of samples. -/
def simpsonWeight (count i : ℕ) : ℕ :=
  if i = 0 then 1 else if i + 1 = count then 1 else if i % 2 = 1 then 4 else 2

def simpsonSum (values : List α) : α :=
  ∑ i ∈ range values.length, (simpsonWeight values.length i : α) * squareAt values i

/-- Two more samples in front give the first sample behind them its second panel. -/
theorem simpsonWeight_add_two {count : ℕ} (hcount : 2 ≤ count) (i : ℕ) :
    simpsonWeight (count + 2) (i + 2) = simpsonWeight count i + if i = 0 then 1 else 0 := by
  have hlast : i + 2 + 1 = count + 2 ↔ i + 1 = count := by omega
  have hparity : (i + 2) % 2 = i % 2 := by omega
  rw [simpsonWeight, simpsonWeight, if_neg (Nat.succ_ne_zero _)]
  simp only [hlast, hparity]
  split_ifs <;> omega

theorem simpsonSum_cons_cons (a b c : α) {rest : List α} (hrest : rest ≠ []) :
    simpsonSum (a :: b :: c :: rest) = a ^ 2 + 4 * b ^ 2 + c ^ 2 + simpsonSum (c :: rest) := by
  have hcount : 2 ≤ (c :: rest).length := Nat.succ_le_succ (List.length_pos_of_ne_nil hrest)
  have hfirst : simpsonWeight ((c :: rest).length + 2) 0 = 1 := rfl
  have hsecond : simpsonWeight ((c :: rest).length + 2) 1 = 4 := by
    rw [simpsonWeight, if_neg one_ne_zero, if_neg (by omega), if_pos rfl]
  have hothers : ∀ i, ((simpsonWeight ((c :: rest).length + 2) (i + 2) : ℕ) : α) *
      squareAt (c :: rest) i =
        (simpsonWeight (c :: rest).length i : α) * squareAt (c :: rest) i +
          if i = 0 then squareAt (c :: rest) i else 0 := by
    intro i
    rw [simpsonWeight_add_two hcount]
    split <;> push_cast <;> ring
  have hdouble : ∑ i ∈ range (c :: rest).length,
      (if i = 0 then squareAt (c :: rest) i else 0) = c ^ 2 := by
    rw [sum_ite_eq', if_pos (mem_range.mpr (Nat.lt_of_lt_of_le two_pos hcount))]
    rfl
  rw [simpsonSum, List.length_cons, List.length_cons, sum_range_succ', sum_range_succ']
  simp only [squareAt_cons_succ, hothers, sum_add_distrib, hdouble]
  rw [hfirst, hsecond, simpsonSum]
  simp only [squareAt_cons_zero]
  push_cast
  ring

/-! ### The trapezoidal rule -/

theorem trapezoidal_eq_sum (values : List α) (dt : α) :
    trapezoidal values dt = (List.zipWith (trapezoid dt) values values.tail).sum := by
  rw [trapezoidal, Nat.cast_zero, neg_zero, ← List.sum_eq_foldl]

theorem trapezoidal_nil : trapezoidal [] dt = 0 := by
  rw [trapezoidal_eq_sum]
  rfl

theorem trapezoidal_singleton (a : α) : trapezoidal [a] dt = 0 := by
  rw [trapezoidal_eq_sum]
  rfl

theorem trapezoidal_cons_cons (a b : α) (rest : List α) :
    trapezoidal (a :: b :: rest) dt = trapezoid dt a b + trapezoidal (b :: rest) dt := by
  rw [trapezoidal_eq_sum, trapezoidal_eq_sum]
  exact List.sum_cons

theorem trapezoidal_eq (values : List α) (dt : α) :
    trapezoidal values dt =
      dt * ∑ i ∈ range (values.length - 1), (squareAt values i + squareAt values (i + 1)) / 2 := by
  induction values with
  | nil => rw [trapezoidal_nil, List.length_nil, range_zero, sum_empty, mul_zero]
  | cons a rest ih =>
    cases rest with
    | nil => rw [trapezoidal_singleton, List.length_singleton, range_zero, sum_empty, mul_zero]
    | cons b rest =>
      have hlength : (a :: b :: rest).length - 1 = ((b :: rest).length - 1) + 1 := rfl
      rw [trapezoidal_cons_cons, ih, hlength, sum_range_succ']
      simp only [squareAt_cons_succ, squareAt_cons_zero, trapezoid, square]
      push_cast
      ring

/-- The two parts of a signal that share a sample share no interval. -/
theorem trapezoidal_split {values : List α} {k : ℕ} (hk : k < values.length) :
    trapezoidal (values.take (k + 1)) dt + trapezoidal (values.drop k) dt =
      trapezoidal values dt := by
  induction k generalizing values with
  | zero =>
    obtain ⟨a, rest, rfl⟩ := List.exists_cons_of_length_pos hk
    rw [List.take_succ_cons, List.take_zero, trapezoidal_singleton, zero_add, List.drop_zero]
  | succ k ih =>
    obtain ⟨a, b, rest, rfl⟩ : ∃ a b rest, values = a :: b :: rest := by
      match values, hk with
      | a :: b :: rest, _ => exact ⟨a, b, rest, rfl⟩
    rw [List.take_succ_cons, List.take_succ_cons, trapezoidal_cons_cons, List.drop_succ_cons,
      trapezoidal_cons_cons, add_assoc, ← ih (Nat.lt_of_succ_lt_succ hk), List.take_succ_cons]

/-! ### Simpson's rule -/

theorem simpsonFrom_add (before sum : α) (values : List α) :
    simpsonFrom dt (before + sum) values = before + simpsonFrom dt sum values := by
  induction sum, values using simpsonFrom.induct dt with
  | case1 sum a b c rest ih => rw [simpsonFrom, simpsonFrom, add_assoc, ih]
  | case2 sum a b => rw [simpsonFrom, simpsonFrom, add_assoc]
  | case3 values sum hparabola hclosing =>
    rw [simpsonFrom.eq_3 dt _ values hparabola hclosing,
      simpsonFrom.eq_3 dt sum values hparabola hclosing]

/-- Without rounding, the trapezoidal rule for two samples is what closes Simpson's rule. -/
theorem simpson_eq (values : List α) (dt : α) : simpson values dt = simpsonFrom dt 0 values := by
  rw [simpson, Nat.cast_zero]
  split
  · next hshort =>
    match values, hshort with
    | [], _ => exact trapezoidal_nil
    | [a], _ => exact trapezoidal_singleton a
    | [a, b], _ =>
      rw [trapezoidal_cons_cons, trapezoidal_singleton, simpsonFrom, trapezoid, closingTrapezoid]
      ring
  · rfl

theorem simpson_nil : simpson [] dt = 0 := simpson_eq [] dt

theorem simpson_singleton (a : α) : simpson [a] dt = 0 := simpson_eq [a] dt

theorem simpson_pair (a b : α) : simpson [a, b] dt = closingTrapezoid dt a b := by
  rw [simpson_eq, simpsonFrom, zero_add]

theorem simpson_cons_cons_cons (a b c : α) (rest : List α) :
    simpson (a :: b :: c :: rest) dt = parabola dt a b c + simpson (c :: rest) dt := by
  rw [simpson_eq, simpson_eq, simpsonFrom, zero_add, ← simpsonFrom_add, add_zero]

/-- The two parts of a signal that is cut between two pairs of intervals share no interval. -/
theorem simpson_split {values : List α} {k : ℕ} (hk : 2 * k < values.length) :
    simpson (values.take (2 * k + 1)) dt + simpson (values.drop (2 * k)) dt =
      simpson values dt := by
  induction k generalizing values with
  | zero =>
    obtain ⟨a, rest, rfl⟩ := List.exists_cons_of_length_pos hk
    rw [Nat.mul_zero, List.take_succ_cons, List.take_zero, simpson_singleton, zero_add,
      List.drop_zero]
  | succ k ih =>
    obtain ⟨a, b, c, rest, rfl⟩ : ∃ a b c rest, values = a :: b :: c :: rest := by
      match values, hk with
      | a :: b :: c :: rest, _ => exact ⟨a, b, c, rest, rfl⟩
    have hrest : 2 * k < (c :: rest).length := by
      simp only [List.length_cons] at hk ⊢
      omega
    have htake : (a :: b :: c :: rest).take (2 * (k + 1) + 1) =
        a :: b :: c :: rest.take (2 * k) := rfl
    have hdrop : (a :: b :: c :: rest).drop (2 * (k + 1)) = (c :: rest).drop (2 * k) := rfl
    rw [htake, hdrop, simpson_cons_cons_cons, simpson_cons_cons_cons, add_assoc, ← ih hrest,
      List.take_succ_cons]

theorem simpson_of_odd {values : List α} {k : ℕ} (hlength : values.length = 2 * k + 3) :
    simpson values dt = dt / 3 * simpsonSum values := by
  induction k generalizing values with
  | zero =>
    match values, hlength with
    | [a, b, c], _ =>
      have hsum : simpsonSum [a, b, c] = a ^ 2 + 4 * b ^ 2 + c ^ 2 := by
        simp [simpsonSum, simpsonWeight, sum_range_succ]
      rw [simpson_cons_cons_cons, simpson_singleton, hsum, parabola, square, square, square]
      push_cast
      ring
  | succ k ih =>
    obtain ⟨a, b, c, rest, rfl⟩ : ∃ a b c rest, values = a :: b :: c :: rest := by
      match values, hlength with
      | a :: b :: c :: rest, _ => exact ⟨a, b, c, rest, rfl⟩
    have hrest : (c :: rest).length = 2 * k + 3 := by
      simp only [List.length_cons] at hlength ⊢
      omega
    have hne : rest ≠ [] := by
      rintro rfl
      simp at hrest
    rw [simpson_cons_cons_cons, ih hrest, simpsonSum_cons_cons a b c hne, parabola, square, square,
      square]
    push_cast
    ring

theorem simpson_of_even {values : List α} {k : ℕ} (hlength : values.length = 2 * (k + 1) + 2) :
    simpson values dt = dt / 3 * simpsonSum (values.take (2 * (k + 1) + 1)) +
      dt / 2 * (squareAt values (2 * (k + 1)) + squareAt values (2 * (k + 1) + 1)) := by
  have hfront : (values.take (2 * (k + 1) + 1)).length = 2 * k + 3 := by
    rw [List.length_take]
    omega
  obtain ⟨a, b, hback⟩ : ∃ a b, values.drop (2 * (k + 1)) = [a, b] := by
    rw [← List.length_eq_two, List.length_drop]
    omega
  have ha : squareAt values (2 * (k + 1)) = a ^ 2 := by
    have hfirst := squareAt_drop values (2 * (k + 1)) 0
    rwa [hback, Nat.add_zero, squareAt_cons_zero, eq_comm] at hfirst
  have hb : squareAt values (2 * (k + 1) + 1) = b ^ 2 := by
    rw [← squareAt_drop, hback]
    rfl
  rw [← simpson_split (k := k + 1) (by omega), hback, simpson_pair, ha, hb,
    simpson_of_odd hfront, closingTrapezoid, square, square]
  push_cast
  ring

/-! ### Main statement -/

/--
The rules in exact arithmetic. The trapezoidal rule adds, for each interval, the mean of the squares
at its ends times its length. Simpson's rule weighs an odd number of squares by 1, 4, 2, …, 4, 1;
for an even number it does so with all but the last sample and closes the last interval with a
trapezoid; for fewer than three samples it is the trapezoidal rule. Cut at any sample, which then
belongs to both parts, a signal has the energy of its parts by the trapezoidal rule, and cut at a
sample with an even place it does so by Simpson's rule.
-/
theorem rules_cover_every_interval (values : List α) (dt : α) :
    trapezoidal values dt =
      dt * ∑ i ∈ range (values.length - 1), (squareAt values i + squareAt values (i + 1)) / 2 ∧
    (3 ≤ values.length → values.length % 2 = 1 →
      simpson values dt = dt / 3 * simpsonSum values) ∧
    (4 ≤ values.length → values.length % 2 = 0 →
      simpson values dt = dt / 3 * simpsonSum (values.take (values.length - 1)) +
        dt / 2 * (squareAt values (values.length - 2) + squareAt values (values.length - 1))) ∧
    (values.length < 3 → simpson values dt = trapezoidal values dt) ∧
    ∀ k < values.length,
      trapezoidal (values.take (k + 1)) dt + trapezoidal (values.drop k) dt =
        trapezoidal values dt ∧
      (k % 2 = 0 → simpson (values.take (k + 1)) dt + simpson (values.drop k) dt =
        simpson values dt) := by
  refine ⟨trapezoidal_eq values dt, fun hleast hodd => ?_, fun hleast heven => ?_, fun hshort => ?_,
    fun k hk => ⟨trapezoidal_split hk, fun heven => ?_⟩⟩
  · exact simpson_of_odd (k := values.length / 2 - 1) (by omega)
  · obtain ⟨k, hlength⟩ : ∃ k, values.length = 2 * (k + 1) + 2 :=
      ⟨values.length / 2 - 2, by omega⟩
    rw [simpson_of_even hlength, hlength]
    rfl
  · rw [simpson, if_pos hshort]
  · obtain ⟨j, rfl⟩ : ∃ j, k = 2 * j := ⟨k / 2, by omega⟩
    exact simpson_split hk

/-- Five and four samples over the rational numbers, cut at the third one. -/
theorem rules_cover_every_interval_ramp :
    simpson [0, 1, 2, 3, (4 : ℚ)] (1 / 2) = 1 / 2 / 3 * simpsonSum [0, 1, 2, 3, 4] ∧
      simpson [0, 1, 2, (3 : ℚ)] (1 / 2) =
        1 / 2 / 3 * simpsonSum [0, 1, 2] + 1 / 2 / 2 * (2 ^ 2 + 3 ^ 2) ∧
      simpson [1, (3 : ℚ)] (1 / 2) = trapezoidal [1, 3] (1 / 2) ∧
      trapezoidal [0, 1, 2] (1 / 2) + trapezoidal [2, 3, (4 : ℚ)] (1 / 2) =
        trapezoidal [0, 1, 2, 3, 4] (1 / 2) ∧
      simpson [0, 1, 2] (1 / 2) + simpson [2, 3, (4 : ℚ)] (1 / 2) =
        simpson [0, 1, 2, 3, 4] (1 / 2) := by
  obtain ⟨-, hodd, -, -, hcuts⟩ := rules_cover_every_interval [0, 1, 2, 3, (4 : ℚ)] (1 / 2)
  obtain ⟨-, -, heven, -, -⟩ := rules_cover_every_interval [0, 1, 2, (3 : ℚ)] (1 / 2)
  obtain ⟨-, -, -, hshort, -⟩ := rules_cover_every_interval [1, (3 : ℚ)] (1 / 2)
  obtain ⟨htrapezoids, hpanels⟩ := hcuts 2 (by decide)
  exact ⟨hodd (by decide) (by decide), heven (by decide) (by decide), hshort (by decide),
    htrapezoids, hpanels (by decide)⟩

end Waveform.Energy
