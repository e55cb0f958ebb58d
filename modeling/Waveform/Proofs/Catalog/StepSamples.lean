import Mathlib.Data.List.Forall2
import Waveform.Proofs.Catalog.Recombination
import Waveform.Proofs.Formula.Reading
import Waveform.Proofs.Sampling.Checking

/-!
# Samples of the steps

A decomposition compiles if all its formulas do, and has one step for each part, in their order;
otherwise the first formula that does not compile is the error. Sampled on a grid, every step has a
series on the times of the grid. Recombining goes through whole columns of values, step by step, and
comes to the same as going through the series at each place of the grid: the value there is that of
the last series, or the sum of all of them from zero. Main statement:
`recombine_agrees_with_samples`.
-/

namespace Waveform.Catalog

open Waveform.Formula Waveform.Formula.Parser Waveform.Sampling

/-! ### Lists of results -/

section Results

variable {α β ε : Type} {f : α → Except ε β}

theorem mapM_eq_ok {xs : List α} {ys : List β} :
    xs.mapM f = .ok ys ↔ List.Forall₂ (fun x y => f x = .ok y) xs ys := by
  induction xs generalizing ys with
  | nil => rw [List.mapM_nil, pure_eq_ok, List.forall₂_nil_left_iff, eq_comm]
  | cons x xs ih =>
    simp only [List.mapM_cons, bind_eq_ok, pure_eq_ok, ih, List.forall₂_cons_left_iff]
    constructor
    · rintro ⟨y, hy, ys, hys, rfl⟩
      exact ⟨y, ys, hy, hys, rfl⟩
    · rintro ⟨y, ys, hy, hys, rfl⟩
      exact ⟨y, hy, ys, hys, rfl⟩

theorem exists_mapM_eq_ok {xs : List α} :
    (∃ ys, xs.mapM f = .ok ys) ↔ ∀ x ∈ xs, ∃ y, f x = .ok y := by
  simp only [mapM_eq_ok]
  induction xs with
  | nil => simp
  | cons x xs ih =>
    rw [List.forall_mem_cons, ← ih]
    simp only [List.forall₂_cons_left_iff]
    constructor
    · rintro ⟨_, y, ys, hy, hys, -⟩
      exact ⟨⟨y, hy⟩, ys, hys⟩
    · rintro ⟨⟨y, hy⟩, ys, hys⟩
      exact ⟨y :: ys, y, ys, hy, hys, rfl⟩

/-- The error is that of the first element that has one. -/
theorem mapM_eq_error {xs : List α} {error : ε} :
    xs.mapM f = .error error ↔ ∃ before x after, xs = before ++ x :: after ∧
      (∀ y ∈ before, ∃ result, f y = .ok result) ∧ f x = .error error := by
  induction xs with
  | nil => simp [pure, Except.pure]
  | cons x xs ih =>
    simp only [List.mapM_cons, bind_eq_error, ih]
    constructor
    · rintro (herror | ⟨y, hy, ⟨before, z, after, rfl, hbefore, herror⟩ | ⟨_, -, hpure⟩⟩)
      · exact ⟨[], x, xs, rfl, by simp, herror⟩
      · exact ⟨x :: before, z, after, rfl, List.forall_mem_cons.2 ⟨⟨y, hy⟩, hbefore⟩, herror⟩
      · cases hpure
    · rintro ⟨before, z, after, hsplit, hbefore, herror⟩
      cases before with
      | nil =>
        obtain ⟨rfl, rfl⟩ := List.cons.inj hsplit
        exact .inl herror
      | cons first before =>
        obtain ⟨rfl, rfl⟩ := List.cons.inj hsplit
        obtain ⟨⟨y, hy⟩, hbefore⟩ := List.forall_mem_cons.1 hbefore
        exact .inr ⟨y, hy, .inl ⟨before, z, after, rfl, hbefore, herror⟩⟩

end Results

/-! ### Compiling the steps -/

structure DecompositionStep.Compiles (part : String × String) (step : DecompositionStep) :
    Prop where
  description_eq : step.description = part.1
  program_eq : Formula.compile part.2 = .ok step.program

namespace Decomposition

variable {combination : Combination} {parts : List (String × String)}

def compilePart (part : String × String) : Except FormulaError DecompositionStep := do
  return ⟨part.1, ← Formula.compile part.2⟩

theorem compilePart_eq_ok {part : String × String} {step : DecompositionStep} :
    compilePart part = .ok step ↔ step.Compiles part := by
  rw [compilePart, bind_eq_ok]
  simp only [pure_eq_ok]
  constructor
  · rintro ⟨program, hprogram, rfl⟩
    exact ⟨rfl, hprogram⟩
  · obtain ⟨description, program⟩ := step
    rintro ⟨rfl, hprogram⟩
    exact ⟨program, hprogram, rfl⟩

theorem compilePart_eq_error {part : String × String} {error : FormulaError} :
    compilePart part = .error error ↔ Formula.compile part.2 = .error error := by
  rw [compilePart, bind_eq_error]
  exact or_iff_left (by rintro ⟨program, -, hpure⟩; cases hpure)

theorem exists_compilePart {part : String × String} :
    (∃ step, compilePart part = .ok step) ↔ ∃ program, Formula.compile part.2 = .ok program := by
  constructor
  · rintro ⟨step, hstep⟩
    exact ⟨_, (compilePart_eq_ok.1 hstep).program_eq⟩
  · rintro ⟨program, hprogram⟩
    exact ⟨⟨part.1, program⟩, compilePart_eq_ok.2 ⟨rfl, hprogram⟩⟩

theorem compile_eq : compile combination parts =
    parts.mapM compilePart >>= fun steps => pure ⟨combination, steps⟩ := rfl

theorem compile_eq_ok {decomposition : Decomposition} :
    compile combination parts = .ok decomposition ↔ decomposition.combination = combination ∧
      List.Forall₂ (fun part step => step.Compiles part) parts decomposition.steps := by
  rw [compile_eq, bind_eq_ok]
  simp only [mapM_eq_ok, compilePart_eq_ok, pure_eq_ok]
  constructor
  · rintro ⟨steps, hsteps, rfl⟩
    exact ⟨rfl, hsteps⟩
  · obtain ⟨_, steps⟩ := decomposition
    rintro ⟨rfl, hsteps⟩
    exact ⟨steps, hsteps, rfl⟩

theorem exists_compile : (∃ decomposition, compile combination parts = .ok decomposition) ↔
    ∀ part ∈ parts, ∃ program, Formula.compile part.2 = .ok program := by
  simp only [compile_eq, bind_eq_ok, pure_eq_ok]
  rw [← forall₂_congr fun part _ => exists_compilePart, ← exists_mapM_eq_ok]
  constructor
  · rintro ⟨_, steps, hsteps, -⟩
    exact ⟨steps, hsteps⟩
  · rintro ⟨steps, hsteps⟩
    exact ⟨_, steps, hsteps, rfl⟩

/-- The error is that of the first formula that does not compile. -/
theorem compile_eq_error {error : FormulaError} :
    compile combination parts = .error error ↔ ∃ before part after,
      parts = before ++ part :: after ∧
      (∀ earlier ∈ before, ∃ program, Formula.compile earlier.2 = .ok program) ∧
      Formula.compile part.2 = .error error := by
  rw [compile_eq, bind_eq_error]
  simp only [mapM_eq_error, exists_compilePart, compilePart_eq_error]
  exact or_iff_left (by rintro ⟨steps, -, hpure⟩; cases hpure)

end Decomposition

/-! ### Place by place -/

/-- What the values of the steps at one place give, in their order. -/
inductive Combination.Gives : Combination → List Float → Float → Prop
  | last (values : List Float) (value : Float) : Gives .sequence (values ++ [value]) value
  | total (values : List Float) : Gives .sum values (values.foldl (· + ·) 0)
  | nothing (combination : Combination) : Gives combination [] 0

namespace Decomposition

variable {decomposition : Decomposition} {grid : TimeGrid} {ts : List Float} {index : Nat}
  {t : Float}

def valuesAt (decomposition : Decomposition) (t : Float) : List Float :=
  decomposition.steps.map (·.program.evaluate t)

theorem recombine_nil (hsteps : decomposition.steps = []) (ts : List Float) :
    decomposition.recombine ts = ts.map fun _ => 0 := by
  rw [recombine, hsteps, List.map_const']
  cases decomposition.combination <;> rfl

/-- Recombining takes every instant on its own. -/
theorem recombine_eq_map (decomposition : Decomposition) (ts : List Float) :
    ∃ value : Float → Float, decomposition.recombine ts = ts.map value ∧
      ∀ t, decomposition.combination.Gives (decomposition.valuesAt t) (value t) := by
  cases hcombination : decomposition.combination with
  | sum => exact ⟨_, recombine_sum hcombination ts, fun t => .total _⟩
  | sequence =>
    obtain hsteps | ⟨before, last, hsteps⟩ := List.eq_nil_or_concat decomposition.steps
    · refine ⟨_, recombine_nil hsteps ts, fun t => ?_⟩
      rw [valuesAt, hsteps]
      exact .nothing _
    · have hlast : decomposition.steps.getLast? = some last := by simp [hsteps]
      refine ⟨_, recombine_sequence hcombination hlast ts, fun t => ?_⟩
      rw [valuesAt, hsteps, List.concat_eq_append, List.map_append]
      exact .last _ _

theorem length_recombine (decomposition : Decomposition) (ts : List Float) :
    (decomposition.recombine ts).length = ts.length := by
  obtain ⟨value, hvalue, -⟩ := decomposition.recombine_eq_map ts
  rw [hvalue, List.length_map]

theorem getElem?_recombine (decomposition : Decomposition) (ht : ts[index]? = some t) :
    ∃ value, (decomposition.recombine ts)[index]? = some value ∧
      decomposition.combination.Gives (decomposition.valuesAt t) value := by
  obtain ⟨value, hvalue, hgives⟩ := decomposition.recombine_eq_map ts
  refine ⟨value t, ?_, hgives t⟩
  rw [hvalue, List.getElem?_map, ht]
  rfl

theorem length_sample (decomposition : Decomposition) (grid : TimeGrid) :
    (decomposition.sample grid).length = decomposition.length :=
  List.length_map _

theorem forall₂_sample (decomposition : Decomposition) (grid : TimeGrid) :
    List.Forall₂ (fun step series => series.times = grid.times ∧
      series.values = step.program.evaluateAll grid.times)
      decomposition.steps (decomposition.sample grid) := by
  rw [sample, List.forall₂_map_right_iff]
  exact List.forall₂_same.2 fun step _ => ⟨Series.times_sample .., Series.values_sample ..⟩

/-- At one place the series have the values of the steps at the instant there. -/
theorem getElem?_values_sample (ht : grid.times[index]? = some t) :
    List.Forall₂ (fun series value => series.values[index]? = some value)
      (decomposition.sample grid) (decomposition.valuesAt t) := by
  rw [sample, valuesAt, List.forall₂_map_left_iff, List.forall₂_map_right_iff]
  refine List.forall₂_same.2 fun step _ => ?_
  rw [Series.values_sample, List.getElem?_map, ht]
  rfl

end Decomposition

/--
Compiling takes the parts in order: a decomposition has one step for each part, it exists if every
formula compiles, and the error is otherwise that of the first formula that does not. On a grid
every step has a series of its own, on the times of the grid. The recombined values are as many, and
at each place the value is made of those that the series have there: the value of the last one, or
their sum from zero in the order of the steps, or zero if there are none.
-/
theorem recombine_agrees_with_samples :
    (∀ (combination : Combination) (parts : List (String × String)),
      ((∃ decomposition, Decomposition.compile combination parts = .ok decomposition) ↔
        ∀ part ∈ parts, ∃ program, Formula.compile part.2 = .ok program) ∧
      (∀ decomposition, Decomposition.compile combination parts = .ok decomposition ↔
        decomposition.combination = combination ∧
          List.Forall₂ (fun part step => step.Compiles part) parts decomposition.steps) ∧
      ∀ error, Decomposition.compile combination parts = .error error ↔ ∃ before part after,
        parts = before ++ part :: after ∧
        (∀ earlier ∈ before, ∃ program, Formula.compile earlier.2 = .ok program) ∧
        Formula.compile part.2 = .error error) ∧
    ∀ (decomposition : Decomposition) (grid : TimeGrid),
      (decomposition.sample grid).length = decomposition.length ∧
      List.Forall₂ (fun step series => series.times = grid.times ∧
        series.values = step.program.evaluateAll grid.times)
        decomposition.steps (decomposition.sample grid) ∧
      (decomposition.recombine grid.times).length = grid.count ∧
      ∀ index : Fin grid.count, ∃ column value,
        List.Forall₂ (fun series value => series.values[index.val]? = some value)
          (decomposition.sample grid) column ∧
        (decomposition.recombine grid.times)[index.val]? = some value ∧
        decomposition.combination.Gives column value := by
  refine ⟨fun combination parts => ⟨Decomposition.exists_compile,
    fun decomposition => Decomposition.compile_eq_ok, fun error => Decomposition.compile_eq_error⟩,
    fun decomposition grid => ?_⟩
  refine ⟨decomposition.length_sample grid, decomposition.forall₂_sample grid, ?_, fun index => ?_⟩
  · rw [Decomposition.length_recombine, TimeGrid.length_times]
  · have hindex : index.val < grid.times.length := by
      rw [TimeGrid.length_times]
      exact index.isLt
    have ht := List.getElem?_eq_getElem hindex
    obtain ⟨value, hvalue, hgives⟩ := decomposition.getElem?_recombine ht
    exact ⟨_, value, Decomposition.getElem?_values_sample ht, hvalue, hgives⟩

end Waveform.Catalog
