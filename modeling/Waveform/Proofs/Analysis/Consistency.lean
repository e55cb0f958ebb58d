import Waveform.Analysis
import Waveform.Proofs.Sampling.Checking

/-!
# Outcomes of an analysis

An analysis of a formula can fail for its options and, if they are fine, for the formula; nothing
that comes after these two can fail. When it succeeds, everything that it holds is about the same
samples: the series and its chart, the energy, and the average power and the class, by magnitude or
by duration. Main statement: `ofFormula_outcome`.
-/

namespace Waveform

open Waveform.Formula Waveform.Sampling Waveform.Energy

/-! ### Series and their charts -/

namespace Sampling.Series

theorem getElem?_sample (signal : Float → Float) (grid : TimeGrid) (index : Nat) :
    (sample signal grid).points[index]? = grid.times[index]?.map fun t => (t, signal t) :=
  List.getElem?_map

/-- A chart leaves out the values that are not finite, and those alone. -/
theorem getElem?_chart {series : Series} {index : Nat} {t value : Float}
    (hpoint : series.points[index]? = some (t, value)) :
    ∃ shown, series.chart[index]? = some (t, shown) ∧ (shown = none ↔ ¬value.isFinite) ∧
      ∀ number ∈ shown, number = value := by
  refine ⟨if value.isFinite then some value else none, ?_, ?_, ?_⟩
  · rw [chart, List.getElem?_map, hpoint]
    rfl
  · cases value.isFinite <;> simp
  · cases value.isFinite <;> simp [eq_comm]

theorem finiteCount_eq (series : Series) :
    series.finiteCount = series.chart.countP fun point => point.2.isSome := by
  rw [finiteCount, values, chart, List.countP_map, List.countP_map]
  congr 1
  funext point
  show point.2.isFinite = (if point.2.isFinite then some point.2 else none).isSome
  cases point.2.isFinite <;> rfl

end Sampling.Series

namespace Analysis

/-! ### One program on one grid -/

/-- An analysis is that of a program on a grid under some options. -/
structure Measures (analysis : Analysis) (program : Program) (options : Options)
    (grid : TimeGrid) : Prop where
  program_eq : analysis.program = program
  series_eq : analysis.series = Series.sample program.evaluate grid
  windowEnergy_eq :
    analysis.windowEnergy = integrate options.method (program.evaluateAll grid.times) grid.step
  byMagnitude : ∀ threshold, options.magnitudeThreshold = some threshold →
    analysis.averagePower = analysis.windowEnergy / grid.span ∧
    analysis.classification =
      classifyByMagnitude analysis.windowEnergy analysis.averagePower threshold
  byDuration : options.magnitudeThreshold = none →
    Energy.averagePower (program.evaluateAll grid.times) grid.window =
      .ok analysis.averagePower ∧
    analysis.classification =
      classify options.duration analysis.windowEnergy analysis.averagePower

theorem ofProgram_of_grid (program : Program) {options : Options} {grid : TimeGrid}
    (hgrid : options.grid = .ok grid) :
    ∃ analysis, ofProgram program options = .ok analysis ∧
      analysis.Measures program options grid := by
  obtain ⟨power, hpower⟩ := exists_averagePower grid program.evaluate
  have hofProgram : ofProgram program options = onGrid program options grid := by
    rw [ofProgram, hgrid]
    rfl
  rw [hofProgram, onGrid]
  simp only [Series.values_sample]
  cases hthreshold : options.magnitudeThreshold with
  | some threshold =>
    refine ⟨_, rfl, rfl, rfl, rfl, fun other hother => ?_, fun hnone => ?_⟩
    · obtain rfl : threshold = other := Option.some.inj (hthreshold.symm.trans hother)
      exact ⟨rfl, rfl⟩
    · cases hthreshold.symm.trans hnone
  | none =>
    simp only [hpower]
    refine ⟨_, rfl, rfl, rfl, rfl, fun threshold hsome => ?_, fun _ => ⟨hpower, rfl⟩⟩
    cases hthreshold.symm.trans hsome

/-! ### Formulas -/

section Formula

variable {source : String} {options : Options}

theorem ofFormula_of_invalid {error : PreconditionError}
    (hinvalid : options.validate = .error error) :
    ofFormula source options = .error (.precondition error) := by
  rw [ofFormula, hinvalid]
  rfl

theorem ofFormula_of_rejected {error : FormulaError} (hvalid : options.validate = .ok ())
    (hrejected : compileWith source options.maxNodes = .error error) :
    ofFormula source options = .error (.formula error) := by
  rw [ofFormula, hvalid, hrejected]
  rfl

theorem ofFormula_of_program {program : Program} {analysis : Analysis}
    (hvalid : options.validate = .ok ())
    (hprogram : compileWith source options.maxNodes = .ok program)
    (hanalysis : ofProgram program options = .ok analysis) :
    ofFormula source options = .ok analysis := by
  rw [ofFormula, hvalid, hprogram]
  show (ofProgram program options).mapError _ = _
  rw [hanalysis]
  rfl

theorem exists_ofFormula {program : Program} (hvalid : options.validate = .ok ())
    (hprogram : compileWith source options.maxNodes = .ok program) :
    ∃ grid analysis, options.grid = .ok grid ∧ ofFormula source options = .ok analysis ∧
      analysis.Measures program options grid := by
  obtain ⟨grid, hgrid⟩ := Options.exists_grid hvalid
  obtain ⟨analysis, hanalysis, hmeasures⟩ := ofProgram_of_grid program hgrid
  exact ⟨grid, analysis, hgrid, ofFormula_of_program hvalid hprogram hanalysis, hmeasures⟩

/-- There are three ways for a request to end, and which one it is does not depend on the grid. -/
theorem ofFormula_cases (source : String) (options : Options) :
    (∃ error, options.validate = .error error ∧
      ofFormula source options = .error (.precondition error)) ∨
    (∃ error, options.validate = .ok () ∧ compileWith source options.maxNodes = .error error ∧
      ofFormula source options = .error (.formula error)) ∨
    ∃ program grid analysis, options.validate = .ok () ∧
      compileWith source options.maxNodes = .ok program ∧ options.grid = .ok grid ∧
      ofFormula source options = .ok analysis ∧ analysis.Measures program options grid := by
  cases hvalid : options.validate with
  | error error => exact .inl ⟨error, rfl, ofFormula_of_invalid hvalid⟩
  | ok =>
    cases hprogram : compileWith source options.maxNodes with
    | error error => exact .inr (.inl ⟨error, rfl, rfl, ofFormula_of_rejected hvalid hprogram⟩)
    | ok program =>
      obtain ⟨grid, analysis, hgrid, hanalysis, hmeasures⟩ := exists_ofFormula hvalid hprogram
      exact .inr (.inr ⟨program, grid, analysis, rfl, rfl, hgrid, hanalysis, hmeasures⟩)

end Formula

/-! ### Main statement -/

/-- The parts of an analysis that belong together. -/
structure Consistent (analysis : Analysis) (program : Program) (options : Options)
    (grid : TimeGrid) : Prop where
  program_eq : analysis.program = program
  length_points : analysis.series.points.length = options.sampleCount
  length_times : grid.times.length = options.sampleCount
  points : ∀ (index : Nat) t, grid.times[index]? = some t →
    analysis.series.points[index]? = some (t, program.evaluate t)
  length_chart : analysis.series.chart.length = options.sampleCount
  chart : ∀ (index : Nat) t value, analysis.series.points[index]? = some (t, value) →
    ∃ shown, analysis.series.chart[index]? = some (t, shown) ∧ (shown = none ↔ ¬value.isFinite) ∧
      ∀ number ∈ shown, number = value
  finiteCount_eq : analysis.series.finiteCount =
    analysis.series.chart.countP fun point => point.2.isSome
  windowEnergy_eq :
    analysis.windowEnergy = integrate options.method analysis.series.values grid.step
  ofMagnitude : options.magnitudeThreshold.isSome →
    analysis.averagePower = analysis.windowEnergy / grid.span ∧
    analysis.classification.averagePower = analysis.averagePower ∧
    analysis.classification.energy = analysis.windowEnergy
  ofInfinite : options.magnitudeThreshold = none → options.duration = .infinite →
    analysis.classification = ⟨Classification.infinity, analysis.averagePower,
      if analysis.averagePower.isFinite then .finitePower else .infinitePower⟩
  ofFinite : options.magnitudeThreshold = none → options.duration = .finite →
    analysis.classification = ⟨analysis.windowEnergy, 0, .finiteEnergy⟩

theorem Measures.consistent {analysis : Analysis} {program : Program} {options : Options}
    {grid : TimeGrid} (h : analysis.Measures program options grid)
    (hgrid : options.grid = .ok grid) : analysis.Consistent program options grid := by
  obtain ⟨-, hcount⟩ := Options.grid_eq_ok.mp hgrid
  have hlength : analysis.series.points.length = options.sampleCount := by
    rw [h.series_eq, ← hcount]
    exact Series.length_sample _ _
  exact {
    program_eq := h.program_eq
    length_points := hlength
    length_times := by rw [TimeGrid.length_times, hcount]
    points := by
      intro index t ht
      rw [h.series_eq, Series.getElem?_sample, ht]
      rfl
    length_chart := (List.length_map _).trans hlength
    chart := fun index t value hpoint => Series.getElem?_chart hpoint
    finiteCount_eq := Series.finiteCount_eq _
    windowEnergy_eq := by
      rw [h.windowEnergy_eq, h.series_eq, Series.values_sample]
      rfl
    ofMagnitude := by
      intro hsome
      obtain ⟨threshold, hthreshold⟩ := Option.isSome_iff_exists.mp hsome
      obtain ⟨hpower, hclassification⟩ := h.byMagnitude threshold hthreshold
      rw [hclassification]
      exact ⟨hpower, rfl, rfl⟩
    ofInfinite := by
      intro hnone hduration
      rw [(h.byDuration hnone).2, hduration, classify_infinite]
    ofFinite := by
      intro hnone hduration
      rw [(h.byDuration hnone).2, hduration, classify_finite] }

/--
An analysis fails in a fixed order. It fails with the error of the options exactly if they are
invalid, whatever the formula is; otherwise with the error of the formula exactly if that does not
compile; and otherwise it succeeds, and its parts belong together.
-/
theorem ofFormula_outcome (source : String) (options : Options) :
    (∀ error, ofFormula source options = .error (.precondition error) ↔
      options.validate = .error error) ∧
    (∀ error, ofFormula source options = .error (.formula error) ↔
      options.validate = .ok () ∧ compileWith source options.maxNodes = .error error) ∧
    (∀ error, ofFormula source options ≠ .error (.computation error)) ∧
    ((∃ analysis, ofFormula source options = .ok analysis) ↔
      options.validate = .ok () ∧ ∃ program, compileWith source options.maxNodes = .ok program) ∧
    ∀ analysis, ofFormula source options = .ok analysis → ∃ program grid,
      compileWith source options.maxNodes = .ok program ∧ options.grid = .ok grid ∧
      analysis.Consistent program options grid := by
  obtain ⟨error, hinvalid, houtcome⟩ | ⟨error, hvalid, hrejected, houtcome⟩ |
    ⟨program, grid, analysis, hvalid, hprogram, hgrid, houtcome, hmeasures⟩ :=
      ofFormula_cases source options
  · simp [hinvalid, houtcome]
  · simp [hvalid, hrejected, houtcome]
  · simp only [hvalid, hprogram, houtcome]
    refine ⟨by simp, by simp, by simp, by simp, fun other hother => ?_⟩
    obtain rfl := Except.ok.inj hother
    exact ⟨program, grid, rfl, hgrid, hmeasures.consistent hgrid⟩

end Analysis

end Waveform
