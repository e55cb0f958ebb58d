import Waveform.Proofs.Sampling.Spacing

/-!
# Where grids end

The points of a checked grid go up from the start of its window to the last point, and nothing
keeps the last point at the end of the window. It is the start plus the product of a rounded step
and the number of steps. So it misses the end by a few units in the last place, to either side, and
in a window whose span is close to the greatest number it is infinite.

Rounding a number that is near a target moves it away by little more. The span, the way that the
steps lead, the offset of the last point and the last point itself are four such roundings, and
what they add up to bounds how far the last point is off. Main statements: `exists_ends` and
`not_enclosed_widest`.
-/

namespace Waveform.Sampling

open Waveform.Decimal

/-! ### Rounding near a target -/

/-- To round a number that is near a target moves it away by little more. -/
theorem abs_sub_le_of_close {result exact target size drift slack small : ℚ}
    (hclose : |result - exact| ≤ 2 ^ (-53 : ℤ) * |result| + small)
    (hnear : |exact - target| ≤ drift * size + slack) (htarget : |target| ≤ size)
    (hdrift : drift ≤ 1 / 2) (hslack : 0 ≤ slack) (hsmall : 0 ≤ small) :
    |result - target| ≤ (drift + 2 ^ (-52 : ℤ)) * size + 2 * (slack + small) := by
  have hsize : 0 ≤ size := (abs_nonneg target).trans htarget
  have hhalf : drift * size ≤ 1 / 2 * size := mul_le_mul_of_nonneg_right hdrift hsize
  have hresult : |result| ≤ |result - target| + |target| := by
    simpa using abs_add_le (result - target) target
  have htriangle : |result - target| ≤ |result - exact| + |exact - target| :=
    abs_sub_le result exact target
  rw [show (2 : ℚ) ^ (-53 : ℤ) = 1 / 9007199254740992 by norm_num] at hclose
  rw [show (2 : ℚ) ^ (-52 : ℤ) = 2 / 9007199254740992 by norm_num, add_mul]
  linarith

theorem least_le : (2 : ℚ) ^ (-1075 : ℤ) ≤ 2 ^ (-1010 : ℤ) / 16 := by
  rw [le_div_iff₀ (by norm_num), show (16 : ℚ) = 2 ^ (4 : ℤ) by norm_num,
    ← zpow_add₀ two_ne_zero]
  exact zpow_le_zpow_right₀ one_le_two (by decide)

namespace TimeGrid

/-- All points are finite and in the window, with its start and its end among them. -/
structure Enclosed (grid : TimeGrid) : Prop where
  within : ∀ time ∈ grid.times,
    time.isFinite ∧ grid.window.start ≤ time ∧ time ≤ grid.window.stop
  first_beq : ∃ first, grid.times.head? = some first ∧ first == grid.window.start
  last_beq : ∃ last, grid.times.getLast? = some last ∧ last == grid.window.stop

def last (grid : TimeGrid) : Float := grid.point (grid.count - 1)

/-- How far the bounds of the window are from zero, together. -/
def reach (grid : TimeGrid) : ℚ := |rank grid.window.start| + |rank grid.window.stop|

section Window

variable (grid : TimeGrid)

theorem getLast?_times : grid.times.getLast? = some grid.last := by
  have htwo := grid.two_le_count
  rw [List.getLast?_eq_getElem?, length_times]
  exact getElem?_times grid (by omega)

theorem head?_times : grid.times.head? = some (grid.point 0) := by
  have htwo := grid.two_le_count
  rw [List.head?_eq_getElem?]
  exact getElem?_times grid (by omega)

theorem abs_stop_le : |rank grid.window.stop| ≤ grid.reach :=
  le_add_of_nonneg_left (abs_nonneg _)

theorem abs_stop_sub_start_le :
    |rank grid.window.stop - rank grid.window.start| ≤ grid.reach := by
  rw [reach, add_comm]
  exact abs_sub _ _

end Window

section Ends

variable {grid : TimeGrid} (hcount : grid.count < 2 ^ 64)
include hcount

/-! ### The last point -/

theorem start_le_point {i : Nat} (hi : i < 2 ^ 64) : grid.window.start ≤ grid.point i := by
  obtain ⟨hfirst, hstart, hrank⟩ := beq_iff.mp (point_zero_beq hcount)
  have hle := point_le_point hcount hi (Nat.zero_le i)
  exact le_trans_float (le_iff.mpr ⟨hstart, hfirst, hrank.ge⟩) hle

theorem le_last {time : Float} (htime : time ∈ grid.times) :
    grid.window.start ≤ time ∧ time ≤ grid.last := by
  obtain ⟨i, hi, rfl⟩ := exists_point_of_mem grid htime
  exact ⟨start_le_point hcount (by omega), point_le_point hcount (by omega) (by omega)⟩

/-- All depends on the last point. -/
theorem enclosed_iff : grid.Enclosed ↔ grid.last == grid.window.stop := by
  constructor
  · rintro ⟨-, -, last, hlast, hequal⟩
    rw [getLast?_times] at hlast
    rwa [Option.some.inj hlast]
  · intro hequal
    refine ⟨fun time htime => ?_, ⟨_, head?_times grid, point_zero_beq hcount⟩,
      ⟨_, getLast?_times grid, hequal⟩⟩
    obtain ⟨hlast, hstop, hrank⟩ := beq_iff.mp hequal
    obtain ⟨hlow, hhigh⟩ := le_last hcount htime
    have hbelow : time ≤ grid.window.stop :=
      le_trans_float hhigh (le_iff.mpr ⟨hlast, hstop, hrank.le⟩)
    exact ⟨isFinite_of_le_of_le grid.start_isFinite grid.stop_isFinite hlow hbelow, hlow, hbelow⟩

/-- Where neither the span nor the step is rounded, the last point is the end. -/
theorem last_beq_stop
    (hspan : rank grid.span = rank grid.window.stop - rank grid.window.start)
    (hstep : rank grid.step * rank grid.steps = rank grid.span) :
    grid.last == grid.window.stop := by
  have hexact := isRounding_rank grid.span_isFinite
  have hoffset : IsRounding (grid.offset (grid.count - 1)) (rank grid.span) := by
    rw [← hstep]
    exact isRounding_offset hcount (by omega)
  have hrank := hoffset.rank_eq hexact
  have hfinite : (grid.offset (grid.count - 1)).isFinite := by
    rw [isFinite_iff_rank hoffset.not_isNaN, hrank, ← isFinite_iff_rank hexact.not_isNaN]
    exact grid.span_isFinite
  have hlast := isRounding_add grid.start_isFinite hfinite
  rw [hrank, hspan, add_sub_cancel] at hlast
  have hstop := isRounding_rank grid.stop_isFinite
  exact beq_iff.mpr ⟨hlast.not_isNaN, hstop.not_isNaN, hlast.rank_eq hstop⟩

/-! ### How far it is off -/

theorem rank_steps_le : rank grid.steps ≤ 2 ^ 65 := by
  have hlt : grid.count - 1 < 2 ^ 64 := by omega
  have hcast : ((grid.count - 1 : ℕ) : ℚ) ≤ 2 ^ 64 := by exact_mod_cast hlt.le
  have hpos : 0 < rank grid.steps := one_pos.trans_le (one_le_rank_steps hcount)
  have hclose : |rank grid.steps - (grid.count - 1 : ℕ)| ≤ 2 ^ (-53 : ℤ) * |rank grid.steps| + _ :=
    (isRounding_ofNat _).abs_rank_sub_le (isFinite_ofNat hlt)
  have hhigh := (abs_le.mp hclose).2
  have hleast : (2 : ℚ) ^ (-1075 : ℤ) ≤ 1 := zpow_le_one_of_nonpos₀ one_le_two (by decide)
  rw [abs_of_pos hpos, show (2 : ℚ) ^ (-53 : ℤ) = 1 / 9007199254740992 by norm_num] at hhigh
  linarith

theorem abs_mul_steps_sub_le :
    |rank grid.step * rank grid.steps - rank grid.span| ≤
      2 ^ (-53 : ℤ) * |rank grid.step * rank grid.steps| + 2 ^ (-1010 : ℤ) := by
  have hpos : 0 < rank grid.steps := one_pos.trans_le (one_le_rank_steps hcount)
  have hclose := (isRounding_step hcount).abs_rank_sub_le (step_isFinite hcount)
  have hleast : (2 : ℚ) ^ (-1075 : ℤ) * rank grid.steps ≤ 2 ^ (-1010 : ℤ) := by
    calc (2 : ℚ) ^ (-1075 : ℤ) * rank grid.steps ≤ 2 ^ (-1075 : ℤ) * 2 ^ (65 : ℕ) :=
          mul_le_mul_of_nonneg_left (rank_steps_le hcount) (by positivity)
      _ = 2 ^ (-1010 : ℤ) := by rw [← zpow_natCast, ← zpow_add₀ two_ne_zero]; rfl
  calc |rank grid.step * rank grid.steps - rank grid.span|
      = |rank grid.step - rank grid.span / rank grid.steps| * rank grid.steps := by
        rw [← abs_of_pos hpos, ← abs_mul, abs_of_pos hpos, sub_mul, div_mul_cancel₀ _ hpos.ne']
    _ ≤ (2 ^ (-53 : ℤ) * |rank grid.step| + 2 ^ (-1075 : ℤ)) * rank grid.steps :=
      mul_le_mul_of_nonneg_right hclose hpos.le
    _ = 2 ^ (-53 : ℤ) * |rank grid.step * rank grid.steps| +
        2 ^ (-1075 : ℤ) * rank grid.steps := by
      rw [abs_mul, abs_of_pos hpos]
      ring
    _ ≤ 2 ^ (-53 : ℤ) * |rank grid.step * rank grid.steps| + 2 ^ (-1010 : ℤ) :=
      add_le_add_right hleast _

theorem abs_mul_steps_sub_sub_le :
    |rank grid.step * rank grid.steps - (rank grid.window.stop - rank grid.window.start)| ≤
      2 ^ (-51 : ℤ) * grid.reach + 3 * 2 ^ (-1010 : ℤ) := by
  have hextent := grid.abs_stop_sub_start_le
  have hexact : |rank grid.window.stop - rank grid.window.start -
      (rank grid.window.stop - rank grid.window.start)| ≤ 0 * grid.reach + 0 := by simp
  have hspan := abs_sub_le_of_close
    ((isRounding_sub grid.stop_isFinite grid.start_isFinite).abs_rank_sub_le grid.span_isFinite)
    hexact hextent (by norm_num) le_rfl (by positivity)
  have hsteps := abs_sub_le_of_close (abs_mul_steps_sub_le hcount) hspan hextent (by norm_num)
    (by positivity) (by positivity)
  have hleast := least_le
  have hsmall : (0 : ℚ) < 2 ^ (-1010 : ℤ) := by positivity
  refine hsteps.trans ?_
  rw [show (0 + 2 ^ (-52 : ℤ) + 2 ^ (-52 : ℤ) : ℚ) = 2 ^ (-51 : ℤ) by norm_num]
  linarith

theorem abs_offset_sub_le (hfinite : (grid.offset (grid.count - 1)).isFinite) :
    |rank (grid.offset (grid.count - 1)) - (rank grid.window.stop - rank grid.window.start)| ≤
      3 * 2 ^ (-52 : ℤ) * grid.reach + 7 * 2 ^ (-1010 : ℤ) := by
  have hclose : |rank (grid.offset (grid.count - 1)) - rank grid.step * rank grid.steps| ≤ _ :=
    (isRounding_offset hcount (by omega)).abs_rank_sub_le hfinite
  have hoffset := abs_sub_le_of_close hclose (abs_mul_steps_sub_sub_le hcount)
    grid.abs_stop_sub_start_le (by norm_num) (by positivity) (by positivity)
  have hleast := least_le
  have hsmall : (0 : ℚ) < 2 ^ (-1010 : ℤ) := by positivity
  refine hoffset.trans ?_
  rw [show (2 ^ (-51 : ℤ) + 2 ^ (-52 : ℤ) : ℚ) = 3 * 2 ^ (-52 : ℤ) by norm_num]
  linarith

/-- A last point that is finite misses the end by rounding only. -/
theorem abs_rank_last_sub_le (hfinite : grid.last.isFinite) :
    |rank grid.last - rank grid.window.stop| ≤
      2 ^ (-50 : ℤ) * grid.reach + 2 ^ (-1006 : ℤ) := by
  have hoffset : (grid.offset (grid.count - 1)).isFinite := (isFinite_of_add hfinite).2
  have hnear := abs_offset_sub_le hcount hoffset
  rw [← sub_add, add_comm, ← add_sub_assoc] at hnear
  have hlast := abs_sub_le_of_close
    ((isRounding_add grid.start_isFinite hoffset).abs_rank_sub_le hfinite) hnear grid.abs_stop_le
    (by norm_num) (by positivity) (by positivity)
  have hleast := least_le
  have hsmall : (0 : ℚ) < 2 ^ (-1010 : ℤ) := by positivity
  refine hlast.trans ?_
  rw [show (3 * 2 ^ (-52 : ℤ) + 2 ^ (-52 : ℤ) : ℚ) = 2 ^ (-50 : ℤ) by norm_num,
    show (-1006 : ℤ) = 4 + -1010 by decide, zpow_add₀ two_ne_zero]
  linarith

/-- Only near the ends of the range of numbers the last point is infinite. -/
theorem last_isFinite (hreach : grid.reach ≤ overflow / 4) : grid.last.isFinite := by
  have hextent := abs_le.mp grid.abs_stop_sub_start_le
  have hstop := abs_le.mp grid.abs_stop_le
  have hsmall : (2 : ℚ) ^ (-1010 : ℤ) ≤ overflow / 128 := by
    calc (2 : ℚ) ^ (-1010 : ℤ) ≤ 1 := zpow_le_one_of_nonpos₀ one_le_two (by decide)
      _ ≤ overflow / 128 := by
        rw [le_div_iff₀ (by norm_num), show (1 * 128 : ℚ) = 2 ^ 7 by norm_num, overflow]
        exact pow_le_pow_right₀ one_le_two (by decide)
  have hoffset : (grid.offset (grid.count - 1)).isFinite := by
    refine (isRounding_offset hcount (by omega)).isFinite_of_abs_le ?_
    have htravelled := abs_le.mp (abs_mul_steps_sub_sub_le hcount)
    rw [show (2 : ℚ) ^ (-51 : ℤ) = 4 / 9007199254740992 by norm_num] at htravelled
    show |rank grid.step * rank grid.steps| ≤ _
    rw [abs_le]
    constructor <;> linarith
  refine (isRounding_add grid.start_isFinite hoffset).isFinite_of_abs_le ?_
  have hnear := abs_le.mp (abs_offset_sub_le hcount hoffset)
  rw [show (2 : ℚ) ^ (-52 : ℤ) = 2 / 9007199254740992 by norm_num] at hnear
  rw [abs_le]
  constructor <;> linarith

end Ends

/-! ### Checked windows -/

/-- Where the points of a grid start, how far they go, and what the last one has to do with the end
of the window. -/
structure Ends (grid : TimeGrid) (last : Float) : Prop where
  getLast?_eq : grid.times.getLast? = some last
  first_beq : ∃ first, grid.times.head? = some first ∧ first == grid.window.start
  within : ∀ time ∈ grid.times, grid.window.start ≤ time ∧ time ≤ last
  /-- The points are in the window, up to its end, only if the last one happens to hit the end. -/
  enclosed_iff : grid.Enclosed ↔ last == grid.window.stop
  /-- It does if neither the span nor the step is rounded. -/
  last_beq : rank grid.span = rank grid.window.stop - rank grid.window.start →
    rank grid.step * rank ((grid.count - 1 : Nat) : Float) = rank grid.span →
      last == grid.window.stop
  /-- It is infinite only if the window reaches near the ends of the range of numbers. -/
  last_isFinite : grid.reach ≤ overflow / 4 → last.isFinite
  /-- Else it is a few units in the last place off. -/
  abs_sub_le : last.isFinite →
    |rank last - rank grid.window.stop| ≤ 2 ^ (-50 : ℤ) * grid.reach + 2 ^ (-1006 : ℤ)

/-- A window and a count that pass the check have a grid with these ends. -/
theorem exists_ends {window : Window} {count : Nat} (hcheck : window.checkGrid count = .ok ())
    (hcount : count < 2 ^ 64) :
    ∃ grid last, ofWindow window count = .ok grid ∧ grid.window = window ∧ grid.count = count ∧
      grid.Ends last := by
  have hends : Ends ⟨window, count, hcheck⟩ (last ⟨window, count, hcheck⟩) :=
    { getLast?_eq := getLast?_times _
      first_beq := ⟨_, head?_times _, point_zero_beq hcount⟩
      within := fun _ => le_last hcount
      enclosed_iff := enclosed_iff hcount
      last_beq := last_beq_stop hcount
      last_isFinite := last_isFinite hcount
      abs_sub_le := abs_rank_last_sub_le hcount }
  exact ⟨_, _, ofWindow_eq_ok hcheck, rfl, rfl, hends⟩

def tenth : TimeGrid := ⟨⟨-1, 0.1⟩, 2, by decide +kernel⟩

/-- The span is rounded up, and the step leads past the end. -/
theorem exists_ends_tenth :
    ofWindow ⟨-1, 0.1⟩ 2 = .ok tenth ∧ ∃ last, tenth.Ends last ∧ tenth.window.stop < last := by
  have hgrid := ofWindow_eq_ok tenth.checked
  obtain ⟨grid, last, hgrid', -, -, hends⟩ := exists_ends tenth.checked (by decide)
  obtain rfl : tenth = grid := Except.ok.inj (hgrid.symm.trans hgrid')
  obtain rfl : tenth.last = last :=
    Option.some.inj ((getLast?_times tenth).symm.trans hends.getLast?_eq)
  exact ⟨hgrid, _, hends, by decide +kernel⟩

def widest : TimeGrid := ⟨⟨0, 1.7976931348623157e308⟩, 4, by decide +kernel⟩

/-- Three thirds of the greatest number are out of range, so the last of four points is infinite. -/
theorem not_enclosed_widest :
    ofWindow ⟨0, 1.7976931348623157e308⟩ 4 = .ok widest ∧ ¬widest.Enclosed ∧
      ∃ last, widest.times.getLast? = some last ∧ ¬last.isFinite := by
  refine ⟨ofWindow_eq_ok widest.checked, ?_, _, getLast?_times widest, by decide +kernel⟩
  rw [enclosed_iff (by decide)]
  decide +kernel

end TimeGrid

end Waveform.Sampling
