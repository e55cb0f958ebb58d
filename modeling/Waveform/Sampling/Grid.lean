import Waveform.Sampling.Window

/-!
# Uniform grids

Evenly spaced points with both ends included. The spacing is computed once and each point from the
start, so rounding does not accumulate. The definitions are over any numbers; grids of time are over
binary64 numbers.
-/

namespace Waveform.Sampling

/-- Natural numbers as binary64 numbers, rounded to nearest. -/
instance natCastFloat : NatCast Float := ⟨Float.ofNat⟩

section Spacing

variable {α : Type} [Add α] [Sub α] [Mul α] [Div α] [NatCast α]

def spacing (start stop : α) (count : Nat) : α := (stop - start) / ((count - 1 : Nat) : α)

/-- `count` evenly spaced points from `start` to `stop`; a single point is the start. -/
def linspace (start stop : α) (count : Nat) : List α :=
  if count = 1 then [start]
  else
    let step := spacing start stop count
    (List.range count).map fun (i : Nat) => start + step * (i : α)

@[simp] theorem length_linspace (start stop : α) (count : Nat) :
    (linspace start stop count).length = count := by
  unfold linspace
  split
  · next hone => exact hone.symm
  · simp

end Spacing

/-- A uniform grid of time, with the window and count that were checked for it. -/
structure TimeGrid where
  window : Window
  count : Nat
  checked : window.checkGrid count = .ok ()

namespace TimeGrid

def ofWindow (window : Window) (count : Nat) : Except PreconditionError TimeGrid :=
  match checked : window.checkGrid count with
  | .ok () => .ok ⟨window, count, checked⟩
  | .error error => .error error

theorem ofWindow_eq_ok {window : Window} {count : Nat}
    (hcheck : window.checkGrid count = .ok ()) :
    ofWindow window count = .ok ⟨window, count, hcheck⟩ := by
  unfold ofWindow
  split
  · rfl
  · next herror => rw [hcheck] at herror; contradiction

theorem ofWindow_eq_error {window : Window} {count : Nat} {error : PreconditionError}
    (hcheck : window.checkGrid count = .error error) : ofWindow window count = .error error := by
  unfold ofWindow
  split
  · next hok => rw [hcheck] at hok; contradiction
  · next herror => exact congrArg Except.error (Except.error.inj (herror.symm.trans hcheck))

def times (grid : TimeGrid) : List Float := linspace grid.window.start grid.window.stop grid.count

@[simp] theorem length_times (grid : TimeGrid) : grid.times.length = grid.count :=
  length_linspace _ _ _

def span (grid : TimeGrid) : Float := grid.window.span

def step (grid : TimeGrid) : Float := grid.span / ((grid.count - 1 : Nat) : Float)

end TimeGrid

end Waveform.Sampling
