import Waveform.Proofs.Catalog.Reporting
import Waveform.Proofs.Decimal.Order
import Waveform.Proofs.History

/-!
# What a summary says of a batch

A summary counts every report in one of three counts, and its extremes are finite energies of the
reports that bound all finite ones. NaN and the infinities never count as energies, wherever they
stand. So the order of the reports shows at most in the sign of a zero. In a batch the three counts
are those of the signals of finite duration, of infinite duration, and of those that do not
compile, and the extremes are those of the energies in the window of the first kind.

Main statement: `summary_aggregates`.
-/

namespace Waveform.Catalog

open Waveform.Formula Waveform.Sampling Waveform.Energy Waveform.Decimal

/-! ### Extremes -/

/-- A choice between two finite numbers takes the one that comes first in an order. -/
structure Chooses (precedes : Float → Float → Prop) (choose : Float → Float → Float) : Prop where
  eq_or_eq : ∀ {x y : Float}, x.isFinite → y.isFinite →
    (choose x y = x ∧ precedes x y) ∨ (choose x y = y ∧ precedes y x)
  refl : ∀ {x : Float}, x.isFinite → precedes x x
  trans : ∀ {x y z : Float}, precedes x y → precedes y z → precedes x z
  beq : ∀ {x y : Float}, precedes x y → precedes y x → x == y

theorem chooses_lesser : Chooses (fun x y => x ≤ y) lesser where
  eq_or_eq := by
    intro x y hx hy
    rw [lesser]
    split
    · next hlt => exact .inl ⟨rfl, le_of_lt_float hlt⟩
    · next hlt =>
      exact .inr ⟨rfl, le_of_not_lt (not_isNaN_of_isFinite hx) (not_isNaN_of_isFinite hy) hlt⟩
  refl := fun hx => le_refl_float (not_isNaN_of_isFinite hx)
  trans := le_trans_float
  beq := beq_of_le_of_le

theorem chooses_greater : Chooses (fun x y => y ≤ x) greater where
  eq_or_eq := by
    intro x y hx hy
    rw [greater]
    split
    · next hlt => exact .inl ⟨rfl, le_of_lt_float hlt⟩
    · next hlt =>
      exact .inr ⟨rfl, le_of_not_lt (not_isNaN_of_isFinite hy) (not_isNaN_of_isFinite hx) hlt⟩
  refl := fun hx => le_refl_float (not_isNaN_of_isFinite hx)
  trans := fun hxy hyz => le_trans_float hyz hxy
  beq := fun hxy hyx => beq_of_le_of_le hyx hxy

/-- A member of a set of numbers that comes before all of them, as long as there are any. -/
structure Extreme (precedes : Float → Float → Prop) (numbers : Set Float)
    (extreme : Option Float) : Prop where
  none_iff : extreme = none ↔ numbers = ∅
  mem : ∀ {number}, extreme = some number → number ∈ numbers
  precedes : ∀ {number}, extreme = some number → ∀ other ∈ numbers, precedes number other

section Extreme

variable {precedes : Float → Float → Prop} {choose : Float → Float → Float} {numbers : Set Float}
  {extreme other : Option Float}

theorem extreme_empty : Extreme precedes ∅ none where
  none_iff := iff_of_true rfl rfl
  mem := by
    intro number hnumber
    cases hnumber
  precedes := by
    intro number hnumber
    cases hnumber

theorem Extreme.insert (hextreme : Extreme precedes numbers extreme)
    (hchooses : Chooses precedes choose) (hfinite : ∀ number ∈ numbers, number.isFinite)
    {number : Float} (hnumber : number.isFinite) :
    Extreme precedes (insert number numbers) (some (extreme.elim number (choose · number))) where
  none_iff := iff_of_false (Option.some_ne_none _) (Set.insert_nonempty _ _).ne_empty
  mem := by
    rintro _ ⟨⟩
    cases extreme with
    | none => exact Set.mem_insert _ _
    | some first =>
      have hfirst := hextreme.mem rfl
      show choose first number ∈ _
      obtain ⟨hchoice, -⟩ | ⟨hchoice, -⟩ := hchooses.eq_or_eq (hfinite _ hfirst) hnumber
      · rw [hchoice]
        exact Set.mem_insert_of_mem _ hfirst
      · rw [hchoice]
        exact Set.mem_insert _ _
  precedes := by
    rintro _ ⟨⟩
    cases extreme with
    | none =>
      rw [hextreme.none_iff.mp rfl, insert_empty_eq]
      rintro _ rfl
      exact hchooses.refl hnumber
    | some first =>
      have hfirst := hextreme.mem rfl
      have hbefore := hextreme.precedes rfl
      show ∀ other ∈ _, precedes (choose first number) other
      obtain ⟨hchoice, hle⟩ | ⟨hchoice, hle⟩ := hchooses.eq_or_eq (hfinite _ hfirst) hnumber
      · rw [hchoice]
        rintro other (rfl | hother)
        · exact hle
        · exact hbefore other hother
      · rw [hchoice]
        rintro other (rfl | hother)
        · exact hchooses.refl hnumber
        · exact hchooses.trans hle (hbefore other hother)

/-- Two extremes of the same numbers are equal as numbers. -/
theorem Extreme.rel (hchooses : Chooses precedes choose)
    (hextreme : Extreme precedes numbers extreme) (hother : Extreme precedes numbers other) :
    Option.Rel (fun x y => x == y) extreme other := by
  cases extreme with
  | none =>
    rw [hother.none_iff.mpr (hextreme.none_iff.mp rfl)]
    exact .none
  | some first =>
    cases other with
    | none =>
      have hempty := hextreme.none_iff.mpr (hother.none_iff.mp rfl)
      cases hempty
    | some second =>
      have hbefore := hextreme.precedes rfl second (hother.mem rfl)
      have hafter := hother.precedes rfl first (hextreme.mem rfl)
      exact .some (hchooses.beq hbefore hafter)

end Extreme

/-! ### Summaries -/

def finiteEnergies (classifications : List Classification) : Set Float :=
  {energy | energy.isFinite ∧ ∃ classification ∈ classifications, classification.energy = energy}

theorem finiteEnergies_nil : finiteEnergies [] = ∅ := by
  simp [finiteEnergies]

theorem finiteEnergies_concat (classifications : List Classification)
    (classification : Classification) :
    finiteEnergies (classifications ++ [classification]) =
      if classification.energy.isFinite then
        insert classification.energy (finiteEnergies classifications)
      else finiteEnergies classifications := by
  ext energy
  split
  · next hfinite =>
    simp only [finiteEnergies, List.mem_append, List.mem_singleton, Set.mem_ofPred_eq,
      Set.mem_insert_iff]
    constructor
    · rintro ⟨henergy, other, hother | rfl, rfl⟩
      · exact .inr ⟨henergy, other, hother, rfl⟩
      · exact .inl rfl
    · rintro (rfl | ⟨henergy, other, hother, rfl⟩)
      · exact ⟨hfinite, classification, .inr rfl, rfl⟩
      · exact ⟨henergy, other, .inl hother, rfl⟩
  · next hinfinite =>
    simp only [finiteEnergies, List.mem_append, List.mem_singleton, Set.mem_ofPred_eq]
    constructor
    · rintro ⟨henergy, other, hother | rfl, rfl⟩
      · exact ⟨henergy, other, hother, rfl⟩
      · exact absurd henergy hinfinite
    · rintro ⟨henergy, other, hother, rfl⟩
      exact ⟨henergy, other, .inl hother, rfl⟩

/-- Classified signals and a summary of them. -/
structure Aggregates (classifications : List Classification) (summary : Summary) : Prop where
  counts_eq :
    summary.energyCount + summary.powerCount + summary.errorCount = classifications.length
  energyCount_eq : summary.energyCount =
    classifications.countP fun classification => classification.signalClass = .finiteEnergy
  powerCount_eq : summary.powerCount =
    classifications.countP fun classification =>
      classification.signalClass = .finitePower ∨ classification.signalClass = .infinitePower
  errorCount_eq : summary.errorCount =
    classifications.countP fun classification => classification.signalClass = .computationError
  minEnergy : Extreme (fun x y => x ≤ y) (finiteEnergies classifications) summary.minEnergy
  maxEnergy : Extreme (fun x y => y ≤ x) (finiteEnergies classifications) summary.maxEnergy

theorem aggregates_empty : Aggregates [] .empty where
  counts_eq := rfl
  energyCount_eq := rfl
  powerCount_eq := rfl
  errorCount_eq := rfl
  minEnergy := finiteEnergies_nil ▸ extreme_empty
  maxEnergy := finiteEnergies_nil ▸ extreme_empty

section Aggregates

variable {classifications : List Classification} {summary : Summary}

theorem add_counts (summary : Summary) (classification : Classification) :
    (summary.add classification).energyCount =
        (summary.count classification.signalClass).energyCount ∧
      (summary.add classification).powerCount =
        (summary.count classification.signalClass).powerCount ∧
      (summary.add classification).errorCount =
        (summary.count classification.signalClass).errorCount := by
  rw [Summary.add, Summary.includeEnergy]
  split <;> exact ⟨rfl, rfl, rfl⟩

def extremeWith (choose : Float → Float → Float) (extreme : Option Float) (energy : Float) :
    Option Float :=
  if energy.isFinite then some (extreme.elim energy (choose · energy)) else extreme

theorem add_extremes (summary : Summary) (classification : Classification) :
    (summary.add classification).minEnergy =
        extremeWith lesser summary.minEnergy classification.energy ∧
      (summary.add classification).maxEnergy =
        extremeWith greater summary.maxEnergy classification.energy := by
  have hextremes : (summary.count classification.signalClass).minEnergy = summary.minEnergy ∧
      (summary.count classification.signalClass).maxEnergy = summary.maxEnergy := by
    cases classification.signalClass <;> exact ⟨rfl, rfl⟩
  rw [Summary.add, Summary.includeEnergy, extremeWith, extremeWith, ← hextremes.1, ← hextremes.2]
  split <;> exact ⟨rfl, rfl⟩

theorem Extreme.add {precedes : Float → Float → Prop} {choose : Float → Float → Float}
    {extreme : Option Float}
    (hextreme : Extreme precedes (finiteEnergies classifications) extreme)
    (hchooses : Chooses precedes choose) (classification : Classification) :
    Extreme precedes (finiteEnergies (classifications ++ [classification]))
      (extremeWith choose extreme classification.energy) := by
  rw [finiteEnergies_concat, extremeWith]
  split
  · next hfinite => exact hextreme.insert hchooses (fun _ hnumber => hnumber.1) hfinite
  · exact hextreme

/-- One more signal is counted once, and its energy is taken in if it is finite. -/
theorem Aggregates.add (haggregates : Aggregates classifications summary)
    (classification : Classification) :
    Aggregates (classifications ++ [classification]) (summary.add classification) := by
  obtain ⟨henergyCount, hpowerCount, herrorCount⟩ := add_counts summary classification
  obtain ⟨hmin, hmax⟩ := add_extremes summary classification
  refine ⟨?_, ?_, ?_, ?_, ?_, ?_⟩
  · rw [henergyCount, hpowerCount, herrorCount, List.length_append, ← haggregates.counts_eq]
    cases classification.signalClass <;> simp only [Summary.count, List.length_singleton] <;> omega
  · rw [henergyCount, List.countP_append, ← haggregates.energyCount_eq]
    cases hclass : classification.signalClass <;> simp [Summary.count, hclass]
  · rw [hpowerCount, List.countP_append, ← haggregates.powerCount_eq]
    cases hclass : classification.signalClass <;> simp [Summary.count, hclass]
  · rw [herrorCount, List.countP_append, ← haggregates.errorCount_eq]
    cases hclass : classification.signalClass <;> simp [Summary.count, hclass]
  · rw [hmin]
    exact haggregates.minEnergy.add chooses_lesser classification
  · rw [hmax]
    exact haggregates.maxEnergy.add chooses_greater classification

theorem aggregates_ofClassifications (classifications : List Classification) :
    Aggregates classifications (.ofClassifications classifications) :=
  foldl_preserves aggregates_empty (fun _ _ classification haggregates =>
    haggregates.add classification) classifications

end Aggregates

theorem finiteEnergies_perm {classifications classifications' : List Classification}
    (hperm : classifications.Perm classifications') :
    finiteEnergies classifications = finiteEnergies classifications' := by
  ext energy
  simp only [finiteEnergies, Set.mem_ofPred_eq, hperm.mem_iff]

structure Summary.Same (summary summary' : Summary) : Prop where
  energyCount_eq : summary.energyCount = summary'.energyCount
  powerCount_eq : summary.powerCount = summary'.powerCount
  errorCount_eq : summary.errorCount = summary'.errorCount
  minEnergy : Option.Rel (fun x y => x == y) summary.minEnergy summary'.minEnergy
  maxEnergy : Option.Rel (fun x y => x == y) summary.maxEnergy summary'.maxEnergy

theorem Aggregates.same {classifications classifications' : List Classification}
    {summary summary' : Summary} (haggregates : Aggregates classifications summary)
    (haggregates' : Aggregates classifications' summary')
    (hperm : classifications.Perm classifications') : summary.Same summary' where
  energyCount_eq := by
    rw [haggregates.energyCount_eq, haggregates'.energyCount_eq]
    exact hperm.countP_eq _
  powerCount_eq := by
    rw [haggregates.powerCount_eq, haggregates'.powerCount_eq]
    exact hperm.countP_eq _
  errorCount_eq := by
    rw [haggregates.errorCount_eq, haggregates'.errorCount_eq]
    exact hperm.countP_eq _
  minEnergy := by
    have hmin := haggregates.minEnergy
    rw [finiteEnergies_perm hperm] at hmin
    exact hmin.rel chooses_lesser haggregates'.minEnergy
  maxEnergy := by
    have hmax := haggregates.maxEnergy
    rw [finiteEnergies_perm hperm] at hmax
    exact hmax.rel chooses_greater haggregates'.maxEnergy

/-! ### Signals -/

/-- What is finite among the energies in the window of the signals of finite duration. -/
def windowEnergies (signals : List Signal) (grid : TimeGrid) (method : Method) : Set Float :=
  {energy | energy.isFinite ∧ ∃ signal ∈ signals, ∃ program,
    compile signal.formula = .ok program ∧ signal.duration = .finite ∧
      integrate method (program.evaluateAll grid.times) grid.step = energy}

/-- Signals on a grid and a summary of them. -/
structure Summarizes (signals : List Signal) (grid : TimeGrid) (method : Method)
    (summary : Summary) : Prop where
  errorCount_eq : summary.errorCount = signals.countP fun signal => !(compile signal.formula).isOk
  energyCount_eq : summary.energyCount = signals.countP fun signal =>
    (compile signal.formula).isOk && signal.duration = .finite
  powerCount_eq : summary.powerCount = signals.countP fun signal =>
    (compile signal.formula).isOk && signal.duration = .infinite
  minEnergy : Extreme (fun x y => x ≤ y) (windowEnergies signals grid method) summary.minEnergy
  maxEnergy : Extreme (fun x y => y ≤ x) (windowEnergies signals grid method) summary.maxEnergy

/-- What a report of a signal adds to a summary. -/
inductive Report.Kind (report : Report) (signal : Signal) (grid : TimeGrid) (method : Method) :
    Prop
  | failed (error : FormulaError) (hformula : compile signal.formula = .error error)
    (hclass : report.classification.signalClass = .computationError)
    (hinfinite : ¬report.classification.energy.isFinite)
  | energy (program : Program) (hformula : compile signal.formula = .ok program)
    (hduration : signal.duration = .finite)
    (hclass : report.classification.signalClass = .finiteEnergy)
    (henergy : report.classification.energy =
      integrate method (program.evaluateAll grid.times) grid.step)
  | power (program : Program) (hformula : compile signal.formula = .ok program)
    (hduration : signal.duration = .infinite)
    (hclass : report.classification.signalClass = .finitePower ∨
      report.classification.signalClass = .infinitePower)
    (hinfinite : ¬report.classification.energy.isFinite)

theorem Report.Describes.kind {report : Report} {signal : Signal} {grid : TimeGrid}
    {method : Method} (hdescribes : report.Describes signal grid method) :
    report.Kind signal grid method := by
  cases hformula : compile signal.formula with
  | error error =>
    obtain ⟨-, hclass, hnan, -⟩ := hdescribes.failed_iff.mpr ⟨error, hformula⟩
    exact .failed error hformula hclass fun hfinite => not_isNaN_of_isFinite hfinite hnan
  | ok program =>
    cases hduration : signal.duration with
    | finite =>
      have hclassification := hdescribes.classification_eq hformula hduration
      refine .energy program hformula hduration ?_ ?_ <;> rw [hclassification]
    | infinite =>
      obtain ⟨power, -, hclassification⟩ := hdescribes.ofInfinite program hformula hduration
      refine .power program hformula hduration ?_ ?_
      · rw [hclassification]
        show (if power.isFinite then SignalClass.finitePower else .infinitePower) = _ ∨ _ = _
        cases power.isFinite with
        | false => exact .inr rfl
        | true => exact .inl rfl
      · rw [hclassification]
        show ¬Classification.infinity.isFinite
        decide

theorem Report.Kind.counts {report : Report} {signal : Signal} {grid : TimeGrid} {method : Method}
    (hkind : report.Kind signal grid method) :
    (decide (report.classification.signalClass = .computationError) = true ↔
      (!(compile signal.formula).isOk) = true) ∧
    (decide (report.classification.signalClass = .finiteEnergy) = true ↔
      ((compile signal.formula).isOk && signal.duration = .finite) = true) ∧
    (decide (report.classification.signalClass = .finitePower ∨
        report.classification.signalClass = .infinitePower) = true ↔
      ((compile signal.formula).isOk && signal.duration = .infinite) = true) := by
  cases hkind with
  | failed _ hformula hclass => simp [hformula, hclass, Except.isOk, Except.toBool]
  | energy _ hformula hduration hclass =>
    simp [hformula, hduration, hclass, Except.isOk, Except.toBool]
  | power _ hformula hduration hclass =>
    obtain hclass | hclass := hclass
    · simp [hformula, hduration, hclass, Except.isOk, Except.toBool]
    · simp [hformula, hduration, hclass, Except.isOk, Except.toBool]

section Signals

variable {signals : List Signal} {grid : TimeGrid} {method : Method} {report : Signal → Report}

theorem finiteEnergies_reports
    (hreport : ∀ signal ∈ signals, (report signal).Describes signal grid method) :
    finiteEnergies (signals.map fun signal => (report signal).classification) =
      windowEnergies signals grid method := by
  ext energy
  simp only [finiteEnergies, windowEnergies, Set.mem_ofPred_eq, List.mem_map]
  constructor
  · rintro ⟨hfinite, _, ⟨signal, hmem, rfl⟩, rfl⟩
    cases (hreport signal hmem).kind with
    | failed _ _ _ hinfinite => exact absurd hfinite hinfinite
    | energy program hformula hduration _ henergy =>
      exact ⟨hfinite, signal, hmem, program, hformula, hduration, henergy.symm⟩
    | power _ _ _ _ hinfinite => exact absurd hfinite hinfinite
  · rintro ⟨hfinite, signal, hmem, program, hformula, hduration, rfl⟩
    refine ⟨hfinite, _, ⟨signal, hmem, rfl⟩, ?_⟩
    rw [(hreport signal hmem).classification_eq hformula hduration]

theorem Aggregates.summarizes {summary : Summary}
    (haggregates : Aggregates (signals.map fun signal => (report signal).classification) summary)
    (hreport : ∀ signal ∈ signals, (report signal).Describes signal grid method) :
    Summarizes signals grid method summary where
  errorCount_eq := by
    rw [haggregates.errorCount_eq, List.countP_map]
    exact List.countP_congr fun signal hmem => (hreport signal hmem).kind.counts.1
  energyCount_eq := by
    rw [haggregates.energyCount_eq, List.countP_map]
    exact List.countP_congr fun signal hmem => (hreport signal hmem).kind.counts.2.1
  powerCount_eq := by
    rw [haggregates.powerCount_eq, List.countP_map]
    exact List.countP_congr fun signal hmem => (hreport signal hmem).kind.counts.2.2
  minEnergy := by
    rw [← finiteEnergies_reports hreport]
    exact haggregates.minEnergy
  maxEnergy := by
    rw [← finiteEnergies_reports hreport]
    exact haggregates.maxEnergy

end Signals

/-! ### Main statement -/

theorem analyzeWith_summary (catalog : Catalog) {options : Options} {grid : TimeGrid}
    (hgrid : options.grid = .ok grid) :
    analyzeWith catalog options =
      .ok ⟨catalog.rows.map fun signal => signal.report grid options.method,
        .ofReports (catalog.rows.map fun signal => signal.report grid options.method)⟩ := by
  rw [analyzeWith, hgrid]
  rfl

/--
A summary aggregates reports in any order. Whatever the reports are, they are counted by their
classes and their finite energies have the extremes of the summary; reports in another order have
the same summary, up to the sign of a zero. Whatever has been registered, the summary of a batch is
that of its reports, and summarizes the signals: those that do not compile, and of the others those
of finite and of infinite duration, with the extremes of the finite energies of the former.
-/
theorem summary_aggregates :
    (∀ reports : List Report, Aggregates (reports.map (·.classification)) (.ofReports reports)) ∧
    (∀ reports reports' : List Report, reports.Perm reports' →
      (Summary.ofReports reports).Same (.ofReports reports')) ∧
    ∀ (start : Start) (requests : List Request) (options : Options),
      let catalog := after start.catalog requests
      options.validate = .ok () → ∃ grid batch, options.grid = .ok grid ∧
        analyzeWith catalog options = .ok batch ∧ batch.summary = .ofReports batch.reports ∧
        Summarizes catalog.rows grid options.method batch.summary := by
  refine ⟨fun reports => aggregates_ofClassifications _, fun reports reports' hperm => ?_, ?_⟩
  · exact (aggregates_ofClassifications _).same (aggregates_ofClassifications _)
      (hperm.map fun report => report.classification)
  · intro start requests options catalog hvalid
    obtain ⟨grid, hgrid⟩ := Options.exists_grid hvalid
    refine ⟨grid, _, hgrid, analyzeWith_summary catalog hgrid, rfl, ?_⟩
    have haggregates := aggregates_ofClassifications
      (catalog.rows.map fun signal => (signal.report grid options.method).classification)
    have hsummary : Summary.ofReports
        (catalog.rows.map fun signal => signal.report grid options.method) =
          .ofClassifications (catalog.rows.map fun signal =>
            (signal.report grid options.method).classification) := by
      rw [Summary.ofReports, List.map_map]
      rfl
    show Summarizes catalog.rows grid options.method (.ofReports _)
    rw [hsummary]
    exact haggregates.summarizes fun signal hmem =>
      Signal.describes_report (compiled_of_mem hmem)

/-- A constant for a while, besides a signal without end and one that does not compile. -/
def threeKinds : List Request := .register "pulse" "1" .finite :: mixedRequests

theorem summary_aggregates_threeKinds :
    Options.forCatalog.validate = .ok () ∧
      ∃ batch, analyzeWith (after Start.empty.catalog threeKinds) .forCatalog = .ok batch ∧
        batch.summary.energyCount = 1 ∧ batch.summary.powerCount = 1 ∧
        batch.summary.errorCount = 1 ∧
        (Summary.ofReports batch.reports.reverse).Same batch.summary := by
  have hvalid : Options.forCatalog.validate = .ok () := by decide
  obtain ⟨-, hperm, hbatch⟩ := summary_aggregates
  obtain ⟨grid, batch, -, hbatch, hsummary, hsummarizes⟩ :=
    hbatch .empty threeKinds .forCatalog hvalid
  have hsame := hperm _ _ batch.reports.reverse_perm
  rw [← hsummary] at hsame
  refine ⟨hvalid, batch, hbatch, hsummarizes.energyCount_eq.trans ?_,
    hsummarizes.powerCount_eq.trans ?_, hsummarizes.errorCount_eq.trans ?_, hsame⟩
  · decide +kernel
  · decide +kernel
  · decide +kernel

end Waveform.Catalog
