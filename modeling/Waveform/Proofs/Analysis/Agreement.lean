import Waveform.Proofs.Analysis.Consistency
import Waveform.Proofs.Catalog.Reporting
import Waveform.Proofs.Formula.Caching

/-!
# One formula, one measure

A formula can be measured on its own, as an entry of a catalog, as a program kept by a cache, or
through the measures over a window. All of them sample the same program on the same grid and decide
by the same rule, so they agree wherever their answers can be compared. Main statement:
`measures_agree`.
-/

namespace Waveform

open Waveform.Formula Waveform.Sampling Waveform.Energy

/-- Under any two limits that a formula keeps to, its program is the same. -/
theorem Formula.compileWith_unique {source : String} {maxNodes maxNodes' : Nat}
    {program program' : Program} (hprogram : compileWith source maxNodes = .ok program)
    (hprogram' : compileWith source maxNodes' = .ok program') : program = program' := by
  obtain ⟨tokens, htokens, hread⟩ := compileWith_eq_ok.mp hprogram
  obtain ⟨tokens', htokens', hread'⟩ := compileWith_eq_ok.mp hprogram'
  obtain rfl : tokens = tokens' := Except.ok.inj (htokens.symm.trans htokens')
  obtain ⟨hparse, hsource⟩ := Program.ofTokens_eq_ok.mp hread
  obtain ⟨hparse', hsource'⟩ := Program.ofTokens_eq_ok.mp hread'
  obtain ⟨⟨nesting, hderives, -⟩, -, hcount, -⟩ := Parser.parse_reads hparse
  obtain ⟨⟨nesting', hderives', -⟩, -, hcount', -⟩ := Parser.parse_reads hparse'
  obtain ⟨hroot, -⟩ := hderives.tree_unique hderives'
  obtain ⟨text, root, nodeCount⟩ := program
  obtain ⟨text', root', nodeCount'⟩ := program'
  simp_all

theorem Catalog.mem_rows_of_get? {catalog : Catalog} {name : String} {signal : Catalog.Signal}
    (hsignal : catalog.get? name = some signal) : signal ∈ catalog.rows :=
  List.mem_of_find?_eq_some hsignal

namespace Analysis.Measures

variable {analysis : Analysis} {program : Program} {options : Options} {grid : TimeGrid}

theorem windowEnergy_of_trapezoidal (h : analysis.Measures program options grid)
    (hgrid : options.grid = .ok grid) (hmethod : options.method = .trapezoidal) :
    Waveform.windowEnergy program options.window options.sampleCount =
      .ok analysis.windowEnergy := by
  have hwindow : TimeGrid.ofWindow options.window options.sampleCount = .ok grid := hgrid
  rw [Waveform.windowEnergy, hwindow, h.windowEnergy_eq, hmethod]
  rfl

theorem windowPower_eq (h : analysis.Measures program options grid)
    (hgrid : options.grid = .ok grid) (hthreshold : options.magnitudeThreshold = none) :
    windowPower program options.window options.sampleCount = .ok analysis.averagePower := by
  have hwindow : TimeGrid.ofWindow options.window options.sampleCount = .ok grid := hgrid
  obtain ⟨hpower, -⟩ := h.byDuration hthreshold
  rw [windowPower, hwindow, ← (Options.grid_eq_ok.mp hgrid).1]
  exact hpower

theorem classification_eq (h : analysis.Measures program options grid)
    (hthreshold : options.magnitudeThreshold = none) {signal : Catalog.Signal}
    {report : Catalog.Report} (hdescribes : report.Describes signal grid options.method)
    (hprogram : compile signal.formula = .ok program)
    (hduration : signal.duration = options.duration) :
    report.classification = analysis.classification := by
  obtain ⟨hpower, hclassification⟩ := h.byDuration hthreshold
  rw [hclassification, ← hduration]
  cases hkind : signal.duration with
  | finite =>
    rw [hdescribes.classification_eq hprogram hkind, classify_finite, h.windowEnergy_eq]
  | infinite =>
    obtain ⟨power, hpower', hreport⟩ := hdescribes.ofInfinite program hprogram hkind
    obtain rfl := Except.ok.inj (hpower.symm.trans hpower')
    rw [hreport, classify_infinite]

end Analysis.Measures

theorem Formula.Cache.kept_eq {source : String} {maxNodes maxNodes' : Nat}
    {history : List Cache.Request} {kept program : Program}
    (hkept : (((Cache.empty maxNodes).after history).getOrCompile source).1 = .ok kept)
    (hprogram : compileWith source maxNodes' = .ok program) : kept = program := by
  rw [(Cache.reflects_after maxNodes history).getOrCompile_eq] at hkept
  exact compileWith_unique hkept hprogram

/-! ### Main statement -/

/--
All ways to measure a formula agree. Under valid options with the standard limit and no threshold,
a formula that compiles has one analysis under each duration. Its classification is that of the
report of every entry with this formula and this duration, in whatever catalog the entry is; a
program kept by a cache has the same analysis; and the measures over the window give its energy
under the trapezoidal rule, and its average power whatever the method and the duration are.
-/
theorem measures_agree {source : String} {program : Program} {options : Options}
    (duration : Duration) (hprogram : compile source = .ok program)
    (hvalid : options.validate = .ok ()) (hthreshold : options.magnitudeThreshold = none)
    (hmaxNodes : options.maxNodes = Parser.defaultMaxNodes) :
    ∃ analysis, Analysis.ofFormula source { options with duration } = .ok analysis ∧
      (∀ (start : Catalog.Start) requests name signal,
        (Catalog.after start.catalog requests).get? name = some signal →
        signal.formula = source → signal.duration = duration →
        ∃ batch report,
          Catalog.analyzeWith (Catalog.after start.catalog requests) options = .ok batch ∧
          batch.get? name = some report ∧ report.classification = analysis.classification) ∧
      (∀ history, (((Cache.empty Parser.defaultMaxNodes).after history).getOrCompile source).1 =
        .ok program) ∧
      (∀ maxNodes history kept,
        (((Cache.empty maxNodes).after history).getOrCompile source).1 = .ok kept →
        Analysis.ofProgram kept { options with duration } = .ok analysis) ∧
      (options.method = .trapezoidal →
        windowEnergy program options.window options.sampleCount = .ok analysis.windowEnergy) ∧
      windowPower program options.window options.sampleCount = .ok analysis.averagePower := by
  obtain ⟨grid, hgrid⟩ := Options.exists_grid hvalid
  have hgrid' : ({ options with duration } : Options).grid = .ok grid := hgrid
  obtain ⟨analysis, hanalysis, hmeasures⟩ := Analysis.ofProgram_of_grid program hgrid'
  have hcompiled : compileWith source options.maxNodes = .ok program := by
    rw [hmaxNodes]
    exact hprogram
  refine ⟨analysis, Analysis.ofFormula_of_program hvalid hcompiled hanalysis, ?_,
    fun history => ?_, fun maxNodes history kept hkept => ?_, fun hmethod => ?_, ?_⟩
  · intro start requests name signal hsignal hformula hduration
    obtain ⟨summary, hbatch⟩ :=
      Catalog.analyzeWith_of_grid (Catalog.after start.catalog requests) hgrid
    have hmem := Catalog.mem_rows_of_get? hsignal
    have hdescribes : (signal.report grid options.method).Describes signal grid options.method :=
      Catalog.Signal.describes_report (Catalog.compiled_of_mem hmem)
    refine ⟨_, signal.report grid options.method, hbatch, ?_, ?_⟩
    · rw [Catalog.get?_reports, hsignal]
      rfl
    · exact hmeasures.classification_eq hthreshold hdescribes (hformula ▸ hprogram) hduration
  · rw [(Cache.reflects_after Parser.defaultMaxNodes history).getOrCompile_eq]
    exact hprogram
  · rw [Cache.kept_eq hkept hprogram]
    exact hanalysis
  · exact hmeasures.windowEnergy_of_trapezoidal hgrid' hmethod
  · exact hmeasures.windowPower_eq hgrid' hthreshold

def simpsonOptions : Options := { Options.standard with sampleCount := 3, method := .simpson }

theorem measures_agree_slope :
    compile "2 t" = .ok ⟨"2 t", .binary .mul (.literal 2) .time, 3⟩ ∧
      simpsonOptions.validate = .ok () ∧ simpsonOptions.magnitudeThreshold = none ∧
      simpsonOptions.maxNodes = Parser.defaultMaxNodes ∧
      ∃ analysis batch report,
        Analysis.ofFormula "2 t" { simpsonOptions with duration := .finite } = .ok analysis ∧
        Catalog.analyzeWith (Catalog.after Catalog.Start.empty.catalog
          [.register "slope" "2 t" .finite]) simpsonOptions = .ok batch ∧
        batch.get? "slope" = some report ∧ report.classification = analysis.classification := by
  have hprogram : compile "2 t" = .ok ⟨"2 t", .binary .mul (.literal 2) .time, 3⟩ := by
    decide +kernel
  have hvalid : simpsonOptions.validate = .ok () := by decide
  obtain ⟨analysis, hanalysis, hentries, -⟩ :=
    measures_agree .finite hprogram hvalid rfl rfl
  obtain ⟨batch, report, hbatch, hreport, hsame⟩ :=
    hentries .empty [.register "slope" "2 t" .finite] "slope" _ rfl rfl rfl
  exact ⟨hprogram, hvalid, rfl, rfl, analysis, batch, report, hanalysis, hbatch, hreport, hsame⟩

end Waveform
