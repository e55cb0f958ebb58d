import Mathlib.Data.List.Nodup
import Waveform.Catalog.Batch
import Waveform.Proofs.Catalog.Registering
import Waveform.Proofs.Sampling.Checking

/-!
# Reports of a batch

A batch fails if its window cannot be sampled, and for no other reason. Otherwise every signal has
its report at its own place, and the report is the one that the signal has in a catalog of its own.
It is a failure exactly if the formula of the signal does not compile: once it does, the grid has
all that a measurement asks for. Main statement: `analyzeWith_isolates`.
-/

namespace Waveform.Catalog

open Waveform.Formula Waveform.Sampling Waveform.Energy

/-! ### Signals of a catalog -/

theorem get?_of_mem {catalog : Catalog} {signal : Signal} (hmem : signal ∈ catalog.rows) :
    catalog.get? signal.name = some signal := by
  obtain ⟨found, hfound⟩ := Table.mem_keys_iff.mp (List.mem_map_of_mem (f := Signal.name) hmem)
  have hname := Table.key_of_get? hfound
  have hsame := List.inj_on_of_nodup_map catalog.distinct (List.mem_of_find?_eq_some hfound) hmem
  rw [hfound, hsame hname]

theorem compiled_of_mem {start : Start} {requests : List Request} {signal : Signal}
    (hmem : signal ∈ (after start.catalog requests).rows) :
    signal.program = compile signal.formula := by
  have hreflects := reflects_after (start.history ++ requests)
  rw [← start.after_eq] at hreflects
  exact (hreflects.signals (get?_of_mem hmem)).2

/-- The requests that make a catalog of one signal. -/
def Signal.requests (signal : Signal) : List Request :=
  .register signal.name signal.formula signal.duration ::
    signal.decomposition.toList.map (.setDecomposition signal.name)

theorem rows_after_requests {signal : Signal}
    (hcompiled : signal.program = compile signal.formula) :
    (after empty signal.requests).rows = [signal] := by
  obtain ⟨name, formula, duration, program, decomposition⟩ := signal
  obtain rfl : program = compile formula := hcompiled
  cases decomposition with
  | none => rfl
  | some decomposition =>
    show [if name = name then _ else _] = _
    rw [if_pos rfl]
    rfl

/-! ### One report -/

/-- The marks of a signal that could not be measured. -/
def Report.Failed (report : Report) : Prop :=
  report.isError = true ∧ report.classification.signalClass = .computationError ∧
    report.classification.energy.isNaN ∧ report.classification.averagePower.isNaN

/-- What there is to report of a signal on a grid. -/
structure Report.Describes (report : Report) (signal : Signal) (grid : TimeGrid)
    (method : Method) : Prop where
  name_eq : report.name = signal.name
  formula_eq : report.formula = signal.formula
  duration_eq : report.duration = signal.duration
  failed_iff : report.Failed ↔ ∃ error, compile signal.formula = .error error
  error_eq : ∀ fault, report.error = some fault ↔
    ∃ error, compile signal.formula = .error error ∧ fault = ⟨signal.name, error.message⟩
  computationError_iff : report.classification.signalClass = .computationError ↔
    ∃ error, compile signal.formula = .error error
  ofFinite : ∀ program, compile signal.formula = .ok program → signal.duration = .finite →
    (method = .trapezoidal → report.classification =
      ⟨trapezoidal (program.evaluateAll grid.times) grid.step, 0, .finiteEnergy⟩) ∧
    (method = .simpson → report.classification =
      ⟨simpson (program.evaluateAll grid.times) grid.step, 0, .finiteEnergy⟩)
  ofInfinite : ∀ program, compile signal.formula = .ok program → signal.duration = .infinite →
    ∃ power, averagePower (program.evaluateAll grid.times) grid.window = .ok power ∧
      report.classification = ⟨Classification.infinity, power,
        if power.isFinite then .finitePower else .infinitePower⟩

theorem isNaN_undefined : Classification.undefined.isNaN = true := by
  decide

section Describes

variable {signal : Signal} {grid : TimeGrid} {method : Method}

theorem Report.describes_failed {error : FormulaError}
    (hprogram : compile signal.formula = .error error) :
    (Report.failed signal ⟨signal.name, error.message⟩).Describes signal grid method where
  name_eq := rfl
  formula_eq := rfl
  duration_eq := rfl
  failed_iff := iff_of_true ⟨rfl, rfl, isNaN_undefined, isNaN_undefined⟩ ⟨error, hprogram⟩
  error_eq := by simp [Report.failed, hprogram, eq_comm]
  computationError_iff := iff_of_true rfl ⟨error, hprogram⟩
  ofFinite := by simp [hprogram]
  ofInfinite := by simp [hprogram]

theorem Report.describes_measured {program : Program} {classification : Classification}
    (hprogram : compile signal.formula = .ok program)
    (hclass : classification.signalClass ≠ .computationError)
    (hfinite : signal.duration = .finite → classification =
      ⟨integrate method (program.evaluateAll grid.times) grid.step, 0, .finiteEnergy⟩)
    (hinfinite : signal.duration = .infinite →
      ∃ power, averagePower (program.evaluateAll grid.times) grid.window = .ok power ∧
        classification = ⟨Classification.infinity, power,
          if power.isFinite then .finitePower else .infinitePower⟩) :
    (Report.measured signal classification).Describes signal grid method where
  name_eq := rfl
  formula_eq := rfl
  duration_eq := rfl
  failed_iff := iff_of_false (fun hfailed => nomatch hfailed.1) (by simp [hprogram])
  error_eq := by simp [Report.measured, hprogram]
  computationError_iff := iff_of_false hclass (by simp [hprogram])
  ofFinite := by
    intro other hother hduration
    obtain rfl := Except.ok.inj (hprogram.symm.trans hother)
    have henergy := hfinite hduration
    constructor
    · rintro rfl
      rwa [integrate_trapezoidal] at henergy
    · rintro rfl
      rwa [integrate_simpson] at henergy
  ofInfinite := by
    intro other hother
    obtain rfl := Except.ok.inj (hprogram.symm.trans hother)
    exact hinfinite

theorem Report.Describes.classification_eq {report : Report} {program : Program}
    (hdescribes : report.Describes signal grid method)
    (hprogram : compile signal.formula = .ok program) (hduration : signal.duration = .finite) :
    report.classification =
      ⟨integrate method (program.evaluateAll grid.times) grid.step, 0, .finiteEnergy⟩ := by
  obtain ⟨htrapezoidal, hsimpson⟩ := hdescribes.ofFinite program hprogram hduration
  cases method with
  | trapezoidal => exact htrapezoidal rfl
  | simpson => exact hsimpson rfl

namespace Signal

theorem report_of_error {error : FormulaError} (hprogram : signal.program = .error error) :
    signal.report grid method = .failed signal ⟨signal.name, error.message⟩ := by
  rw [report, measure, hprogram]
  rfl

theorem report_finite {program : Program} (hprogram : signal.program = .ok program)
    (hduration : signal.duration = .finite) :
    signal.report grid method = .measured signal
      ⟨integrate method (program.evaluateAll grid.times) grid.step, 0, .finiteEnergy⟩ := by
  rw [report, measure, hprogram, hduration]
  rfl

theorem report_infinite {program : Program} {power : Float}
    (hprogram : signal.program = .ok program) (hduration : signal.duration = .infinite)
    (hpower : averagePower (program.evaluateAll grid.times) grid.window = .ok power) :
    signal.report grid method =
      .measured signal (classify .infinite Classification.infinity power) := by
  have hmeasure : signal.measure grid method =
      .ok (classify .infinite Classification.infinity power) := by
    rw [measure, hprogram, hduration]
    show (averagePower _ _).mapError _ >>= _ = _
    rw [hpower]
    rfl
  rw [report, hmeasure]

/-- Once a formula compiles, nothing else can fail. -/
theorem describes_report (hcompiled : signal.program = compile signal.formula) :
    (signal.report grid method).Describes signal grid method := by
  cases hprogram : compile signal.formula with
  | error error =>
    rw [report_of_error (hcompiled.trans hprogram)]
    exact Report.describes_failed hprogram
  | ok program =>
    cases hduration : signal.duration with
    | finite =>
      rw [report_finite (hcompiled.trans hprogram) hduration]
      exact Report.describes_measured hprogram (by simp) (fun _ => rfl) (by simp [hduration])
    | infinite =>
      obtain ⟨power, hpower⟩ := exists_averagePower grid program.evaluate
      rw [report_infinite (hcompiled.trans hprogram) hduration hpower, classify_infinite]
      refine Report.describes_measured hprogram ?_ (by simp [hduration])
        fun _ => ⟨power, hpower, rfl⟩
      show (if power.isFinite then SignalClass.finitePower else .infinitePower) ≠ _
      split <;> simp

theorem name_report (signal : Signal) (grid : TimeGrid) (method : Method) :
    (signal.report grid method).name = signal.name := by
  rw [report]
  split <;> rfl

end Signal

end Describes

/-! ### Batches -/

theorem analyzeWith_of_grid (catalog : Catalog) {options : Options} {grid : TimeGrid}
    (hgrid : options.grid = .ok grid) :
    ∃ summary, analyzeWith catalog options =
      .ok ⟨catalog.rows.map fun signal => signal.report grid options.method, summary⟩ := by
  rw [analyzeWith, hgrid]
  exact ⟨_, rfl⟩

theorem analyzeWith_eq_error {catalog : Catalog} {options : Options} {error : PreconditionError} :
    analyzeWith catalog options = .error error ↔ options.validate = .error error := by
  rw [← Options.grid_eq_error, analyzeWith]
  cases options.grid with
  | error other => simp [bind, Except.bind]
  | ok grid => simp [bind, Except.bind, pure, Except.pure]

theorem get?_reports (catalog : Catalog) (grid : TimeGrid) (method : Method) (summary : Summary)
    (name : String) :
    (Batch.mk (catalog.rows.map fun signal => signal.report grid method) summary).get? name =
      (catalog.get? name).map fun signal => signal.report grid method := by
  rw [Batch.get?, List.find?_map]
  congr 2
  funext signal
  simp only [Function.comp_apply, Signal.name_report]

/-! ### Main statement -/

/--
A batch isolates its signals. Whatever has been registered, the batch fails exactly with the error
of invalid options. Otherwise it has one report for each signal, in the order of the catalog, which
is the report of the signal in a catalog of its own and is found under the name of the signal; it
is a failure exactly if the formula does not compile. No average power and no decision is ever
missing.
-/
theorem analyzeWith_isolates (start : Start) (requests : List Request) (options : Options) :
    let catalog := after start.catalog requests
    (∀ error, analyzeWith catalog options = .error error ↔ options.validate = .error error) ∧
    (options.validate = .ok () → ∃ grid batch, options.grid = .ok grid ∧
      analyzeWith catalog options = .ok batch ∧
      batch.reports.length = catalog.size ∧
      (∀ (index : Nat) signal, catalog.rows[index]? = some signal → ∃ report summary,
        batch.reports[index]? = some report ∧ batch.get? signal.name = some report ∧
        (after empty signal.requests).rows = [signal] ∧
        analyzeWith (after empty signal.requests) options = .ok ⟨[report], summary⟩ ∧
        report.Describes signal grid options.method) ∧
      ∀ name, batch.get? name = none ↔ name ∉ catalog.keys) ∧
    (∀ (grid : TimeGrid) (program : Program), ∃ power,
      averagePower (program.evaluateAll grid.times) grid.window = .ok power) ∧
    ∀ duration power, ((Decision.start duration).advance power).isTaken = true := by
  intro catalog
  refine ⟨fun error => analyzeWith_eq_error, fun hvalid => ?_,
    fun grid program => exists_averagePower grid program.evaluate, fun duration power => ?_⟩
  · obtain ⟨grid, hgrid⟩ := Options.exists_grid hvalid
    obtain ⟨summary, hbatch⟩ := analyzeWith_of_grid catalog hgrid
    refine ⟨grid, _, hgrid, hbatch, List.length_map _, fun index signal hsignal => ?_,
      fun name => ?_⟩
    · have hmem : signal ∈ catalog.rows := List.mem_of_getElem? hsignal
      have hcompiled : signal.program = compile signal.formula := compiled_of_mem hmem
      have hrows := rows_after_requests hcompiled
      obtain ⟨summary, halone⟩ := analyzeWith_of_grid (after empty signal.requests) hgrid
      refine ⟨signal.report grid options.method, summary, ?_, ?_, hrows, ?_,
        Signal.describes_report hcompiled⟩
      · rw [List.getElem?_map, hsignal]
        rfl
      · rw [get?_reports, get?_of_mem hmem]
        rfl
      · rw [halone, hrows]
        rfl
    · rw [get?_reports, Option.map_eq_none_iff, Table.mem_keys_iff, ← Option.isSome_iff_exists]
      simp
  · cases duration with
    | finite => rfl
    | infinite =>
      show (if power.isFinite then Decision.finitePower else .infinitePower).isTaken = true
      split <;> rfl

def mixedRequests : List Request :=
  [.register "slope" "t" .infinite, .register "broken" "foo(t)" .finite]

theorem analyzeWith_isolates_mixed :
    Options.forCatalog.validate = .ok () ∧
      compile "foo(t)" = .error (.rejected (.unknownFunction "foo")) ∧
      ∃ batch slope broken,
        analyzeWith (after Start.empty.catalog mixedRequests) .forCatalog = .ok batch ∧
        batch.reports[0]? = some slope ∧ slope.duration = .infinite ∧
        batch.reports[1]? = some broken ∧ broken.Failed ∧
        broken.error = some ⟨"broken", "Unknown function: foo"⟩ := by
  have hvalid : Options.forCatalog.validate = .ok () := by decide
  have herror : compile "foo(t)" = .error (.rejected (.unknownFunction "foo")) := by
    decide +kernel
  obtain ⟨-, hbatch, -⟩ := analyzeWith_isolates .empty mixedRequests .forCatalog
  obtain ⟨grid, batch, -, hbatch, -, hreports, -⟩ := hbatch hvalid
  obtain ⟨slope, -, hslope, -, -, -, hdescribes⟩ := hreports 0 _ rfl
  obtain ⟨broken, -, hbroken, -, -, -, hdescribes'⟩ := hreports 1 _ rfl
  exact ⟨hvalid, herror, batch, slope, broken, hbatch, hslope, hdescribes.duration_eq, hbroken,
    hdescribes'.failed_iff.mpr ⟨_, herror⟩, (hdescribes'.error_eq _).mpr ⟨_, herror, rfl⟩⟩

end Waveform.Catalog
