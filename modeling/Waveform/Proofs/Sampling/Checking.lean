import Waveform.Options

/-!
# Windows that have passed their check

A window is checked when options are validated, when a grid is made and when an average power is
taken. The checks never disagree: options that are valid have a grid, a grid carries what was
checked for it, and samples on a grid always have an average power.
-/

namespace Waveform

open Waveform.Sampling Waveform.Energy

namespace Sampling

theorem Window.check_eq_ok {window : Window} :
    window.check = .ok () ↔ (window.start.isFinite ∧ window.stop.isFinite) ∧
      ¬window.stop ≤ window.start ∧ window.span.isFinite := by
  rw [check]
  by_cases hfinite : window.start.isFinite ∧ window.stop.isFinite
  · by_cases hempty : window.stop ≤ window.start
    · simp [hfinite, hempty]
    · cases hspan : window.span.isFinite <;> simp [hfinite, hempty]
  · have hbound : (window.start.isFinite && window.stop.isFinite) = false := by
      simpa using hfinite
    simp [hbound, hfinite]

theorem Window.checkGrid_eq_ok {window : Window} {count : Nat} :
    window.checkGrid count = .ok () ↔ window.check = .ok () ∧ leastCount ≤ count := by
  rw [checkGrid]
  cases window.check with
  | error error => simp [bind, Except.bind]
  | ok =>
    by_cases hzero : count = 0
    · simp [hzero, leastCount, bind, Except.bind, throw, throwThe, MonadExceptOf.throw]
    · by_cases hfew : count < leastCount
      · simp [hzero, hfew, bind, Except.bind, throw, throwThe, MonadExceptOf.throw]
      · simp [hzero, hfew, bind, Except.bind, pure, Except.pure, Nat.le_of_not_lt hfew]

namespace TimeGrid

theorem check_window (grid : TimeGrid) : grid.window.check = .ok () :=
  (Window.checkGrid_eq_ok.mp grid.checked).1

theorem two_le_count (grid : TimeGrid) : 2 ≤ grid.count :=
  (Window.checkGrid_eq_ok.mp grid.checked).2

theorem ofWindow_eq_ok_iff {window : Window} {count : Nat} {grid : TimeGrid} :
    ofWindow window count = .ok grid ↔ grid.window = window ∧ grid.count = count := by
  constructor
  · intro hgrid
    cases hcheck : window.checkGrid count with
    | error error => rw [ofWindow_eq_error hcheck] at hgrid; cases hgrid
    | ok =>
      rw [ofWindow_eq_ok hcheck] at hgrid
      obtain rfl := Except.ok.inj hgrid
      exact ⟨rfl, rfl⟩
  · rintro ⟨rfl, rfl⟩
    exact ofWindow_eq_ok grid.checked

theorem ofWindow_eq_error_iff {window : Window} {count : Nat} {error : PreconditionError} :
    ofWindow window count = .error error ↔ window.checkGrid count = .error error := by
  refine ⟨fun hgrid => ?_, ofWindow_eq_error⟩
  cases hcheck : window.checkGrid count with
  | error other =>
    rw [ofWindow_eq_error hcheck] at hgrid
    exact congrArg Except.error (Except.error.inj hgrid)
  | ok => rw [ofWindow_eq_ok hcheck] at hgrid; cases hgrid

end TimeGrid

end Sampling

/-! ### Options -/

namespace Options

variable {options : Options}

theorem grid_eq_ok {grid : TimeGrid} :
    options.grid = .ok grid ↔ grid.window = options.window ∧ grid.count = options.sampleCount :=
  TimeGrid.ofWindow_eq_ok_iff

theorem grid_eq_error {error : PreconditionError} :
    options.grid = .error error ↔ options.validate = .error error :=
  TimeGrid.ofWindow_eq_error_iff

theorem exists_grid (hvalid : options.validate = .ok ()) : ∃ grid, options.grid = .ok grid :=
  ⟨_, TimeGrid.ofWindow_eq_ok hvalid⟩

end Options

/-! ### Average powers -/

namespace Energy

/-- Samples on a grid have an average power: its window is checked, and there are samples. -/
theorem averagePowerWith_eq_ok (method : Method) (grid : TimeGrid) {values : List Float}
    (hvalues : values ≠ []) :
    averagePowerWith method values grid.window =
      .ok (integrate method values (grid.span / (values.length : Float)) / grid.span) := by
  rw [averagePowerWith, grid.check_window]
  simp [hvalues, bind, Except.bind, pure, Except.pure, TimeGrid.span]

theorem two_le_length_map_times (grid : TimeGrid) (signal : Float → Float) :
    2 ≤ (grid.times.map signal).length := by
  rw [List.length_map, TimeGrid.length_times]
  exact grid.two_le_count

theorem map_times_ne_nil (grid : TimeGrid) (signal : Float → Float) :
    grid.times.map signal ≠ [] :=
  List.ne_nil_of_length_pos
    (Nat.lt_of_lt_of_le Nat.zero_lt_two (two_le_length_map_times grid signal))

theorem exists_averagePower (grid : TimeGrid) (signal : Float → Float) :
    ∃ power, averagePower (grid.times.map signal) grid.window = .ok power :=
  ⟨_, averagePowerWith_eq_ok .trapezoidal grid (map_times_ne_nil grid signal)⟩

end Energy

end Waveform
