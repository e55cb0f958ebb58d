import Waveform.Proofs.Decimal.Operations
import Waveform.Proofs.Sampling.Checking

/-!
# Grids are ordered

The points of a checked grid are the start plus the step times their index, with the step that
integration uses, and they are in order. Conversion, product and sum each keep the order of what
they round, so no window is too narrow or too wide for this: a step that vanishes repeats the
start, and a product that overflows is followed by infinite points only.

Counts are below `2 ^ 64`, as those of machine words are. Main statement: `exists_spaced`.
-/

namespace Waveform.Sampling

open Waveform.Decimal

namespace TimeGrid

variable (grid : TimeGrid)

/-! ### Spans -/

theorem start_isFinite : grid.window.start.isFinite :=
  (Window.check_eq_ok.mp grid.check_window).1.1

theorem stop_isFinite : grid.window.stop.isFinite :=
  (Window.check_eq_ok.mp grid.check_window).1.2

theorem span_isFinite : grid.span.isFinite :=
  (Window.check_eq_ok.mp grid.check_window).2.2

theorem start_lt_stop : grid.window.start < grid.window.stop := by
  have hempty := (Window.check_eq_ok.mp grid.check_window).2.1
  exact lt_of_not_le (not_isNaN_of_isFinite grid.start_isFinite)
    (not_isNaN_of_isFinite grid.stop_isFinite) hempty

theorem rank_span_pos : 0 < rank grid.span :=
  rank_sub_pos grid.start_isFinite grid.stop_isFinite grid.start_lt_stop

/-! ### Steps -/

def steps : Float := ((grid.count - 1 : Nat) : Float)

section Steps

variable {grid} (hcount : grid.count < 2 ^ 64)
include hcount

theorem steps_isFinite : grid.steps.isFinite := isFinite_ofNat (by omega)

theorem one_le_rank_steps : 1 ≤ rank grid.steps := by
  have htwo := grid.two_le_count
  exact one_le_rank_ofNat (by omega)

theorem isRounding_step : IsRounding grid.step (rank grid.span / rank grid.steps) := by
  have hpos : 0 < rank grid.steps := one_pos.trans_le (one_le_rank_steps hcount)
  exact isRounding_div grid.span_isFinite (steps_isFinite hcount) hpos.ne'

theorem rank_step_nonneg : 0 ≤ rank grid.step := by
  have hone := one_le_rank_steps hcount
  have hspan := grid.rank_span_pos
  exact (isRounding_step hcount).rank_nonneg (by positivity)

theorem step_nonneg : 0 ≤ grid.step :=
  nonneg_of_rank (isRounding_step hcount).not_isNaN (rank_step_nonneg hcount)

theorem step_isFinite : grid.step.isFinite := by
  have hone := one_le_rank_steps hcount
  have hspan := grid.rank_span_pos
  have hstep := isRounding_step hcount
  have hquotient : rank grid.span / rank grid.steps ≤ rank grid.span :=
    div_le_self hspan.le hone
  have hle := hstep.rank_le (isRounding_rank grid.span_isFinite) hquotient
  have hfinite := (isFinite_iff_rank (not_isNaN_of_isFinite grid.span_isFinite)).mp
    grid.span_isFinite
  rw [isFinite_iff_rank hstep.not_isNaN, abs_of_nonneg (rank_step_nonneg hcount)]
  exact hle.trans_lt ((le_abs_self _).trans_lt hfinite)

end Steps

/-! ### Points -/

def offset (i : Nat) : Float := grid.step * (i : Float)

def point (i : Nat) : Float := grid.window.start + grid.offset i

theorem times_eq : grid.times = (List.range grid.count).map grid.point := by
  have hcount := grid.two_le_count
  exact if_neg (by omega)

theorem getElem?_times {i : Nat} (hi : i < grid.count) : grid.times[i]? = some (grid.point i) := by
  rw [times_eq, List.getElem?_map, List.getElem?_range hi]
  rfl

section Points

variable {grid} (hcount : grid.count < 2 ^ 64) {i j : Nat}
include hcount

theorem isRounding_offset (hi : i < 2 ^ 64) :
    IsRounding (grid.offset i) (rank grid.step * rank (.ofNat i)) :=
  isRounding_mul (step_isFinite hcount) (isFinite_ofNat hi)

theorem offset_le_offset (hj : j < 2 ^ 64) (hle : i ≤ j) : grid.offset i ≤ grid.offset j :=
  mul_le_mul_of_isFinite (step_isFinite hcount) (isFinite_ofNat (hle.trans_lt hj))
    (isFinite_ofNat hj) (step_nonneg hcount) (ofNat_le_ofNat hle)

theorem point_le_point (hj : j < 2 ^ 64) (hle : i ≤ j) : grid.point i ≤ grid.point j :=
  add_le_add_of_isFinite grid.start_isFinite (offset_le_offset hcount hj hle)

theorem not_isNaN_point (hi : i < 2 ^ 64) : ¬(grid.point i).isNaN :=
  not_isNaN_add grid.start_isFinite (isRounding_offset hcount hi).not_isNaN

theorem point_zero_beq : grid.point 0 == grid.window.start := by
  have hoffset := isRounding_offset hcount (Nat.two_pow_pos 64)
  rw [rank_ofNat_zero, mul_zero] at hoffset
  have hfinite : (grid.offset 0).isFinite := by
    refine hoffset.isFinite_of_abs_le ?_
    rw [abs_zero]
    exact (half_pos overflow_pos).le
  have hpoint := isRounding_add grid.start_isFinite hfinite
  rw [hoffset.rank_eq_zero, add_zero] at hpoint
  have hstart := isRounding_rank grid.start_isFinite
  exact beq_iff.mpr ⟨hpoint.not_isNaN, hstart.not_isNaN, hpoint.rank_eq hstart⟩

end Points

/-! ### Spaced grids -/

/-- Points, step and span of a grid agree, and the points are in order. -/
structure Spaced (grid : TimeGrid) : Prop where
  length_eq : grid.times.length = grid.count
  two_le_count : 2 ≤ grid.count
  span_eq : grid.span = grid.window.stop - grid.window.start
  span_isFinite : grid.span.isFinite
  span_pos : 0 < grid.span
  step_eq : grid.step = grid.span / ((grid.times.length - 1 : Nat) : Float)
  step_isFinite : grid.step.isFinite
  step_nonneg : 0 ≤ grid.step
  /-- What the spacing of the points and the step divide by. -/
  divisor_pos : 0 < ((grid.count - 1 : Nat) : Float)
  spacing_eq : spacing grid.window.start grid.window.stop grid.count = grid.step
  getElem?_eq : ∀ i < grid.count,
    grid.times[i]? = some (grid.window.start + grid.step * (i : Float))
  not_isNaN : ∀ time ∈ grid.times, ¬time.isNaN
  first_beq : ∃ first, grid.times[0]? = some first ∧ first == grid.window.start
  ordered : ∀ {i j : Nat} {time time' : Float}, grid.times[i]? = some time →
    grid.times[j]? = some time' → i ≤ j → time ≤ time'

theorem eq_point_of_getElem? {i : Nat} {time : Float} (htime : grid.times[i]? = some time) :
    i < grid.count ∧ time = grid.point i := by
  obtain ⟨hi, -⟩ := List.getElem?_eq_some_iff.mp htime
  rw [length_times] at hi
  rw [getElem?_times grid hi] at htime
  exact ⟨hi, (Option.some.inj htime).symm⟩

theorem exists_point_of_mem {time : Float} (htime : time ∈ grid.times) :
    ∃ i < grid.count, time = grid.point i := by
  obtain ⟨i, hi⟩ := List.mem_iff_getElem?.mp htime
  exact ⟨i, eq_point_of_getElem? grid hi⟩

theorem spaced {grid : TimeGrid} (hcount : grid.count < 2 ^ 64) : grid.Spaced where
  length_eq := grid.length_times
  two_le_count := grid.two_le_count
  span_eq := rfl
  span_isFinite := grid.span_isFinite
  span_pos := pos_of_rank (not_isNaN_of_isFinite grid.span_isFinite) grid.rank_span_pos
  step_eq := by
    rw [length_times]
    rfl
  step_isFinite := step_isFinite hcount
  step_nonneg := step_nonneg hcount
  divisor_pos := pos_of_rank (not_isNaN_of_isFinite (steps_isFinite hcount))
    (one_pos.trans_le (one_le_rank_steps hcount))
  spacing_eq := rfl
  getElem?_eq := fun _ hi => getElem?_times grid hi
  not_isNaN := by
    intro time htime
    obtain ⟨i, hi, rfl⟩ := exists_point_of_mem grid htime
    exact not_isNaN_point hcount (hi.trans hcount)
  first_beq := by
    have hfirst : 0 < grid.count := Nat.zero_lt_two.trans_le grid.two_le_count
    exact ⟨_, getElem?_times grid hfirst, point_zero_beq hcount⟩
  ordered := by
    intro i j time time' htime htime' hle
    obtain ⟨-, rfl⟩ := eq_point_of_getElem? grid htime
    obtain ⟨hj, rfl⟩ := eq_point_of_getElem? grid htime'
    exact point_le_point hcount (hj.trans hcount) hle

/-- A window and a count that pass the check have a grid that is in order. -/
theorem exists_spaced {window : Window} {count : Nat} (hcheck : window.checkGrid count = .ok ())
    (hcount : count < 2 ^ 64) :
    ∃ grid, ofWindow window count = .ok grid ∧ grid.window = window ∧ grid.count = count ∧
      grid.Spaced :=
  ⟨⟨window, count, hcheck⟩, ofWindow_eq_ok hcheck, rfl, rfl, spaced hcount⟩

/-- No window is wider, and the product for the last point is out of range. -/
theorem exists_spaced_widest :
    ∃ grid, ofWindow ⟨0, 1.7976931348623157e308⟩ 4 = .ok grid ∧
      grid.window = ⟨0, 1.7976931348623157e308⟩ ∧ grid.count = 4 ∧ grid.Spaced :=
  exists_spaced (by decide +kernel) (by decide)

end TimeGrid

end Waveform.Sampling
