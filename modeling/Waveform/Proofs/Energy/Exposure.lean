import Waveform.Proofs.Analysis.Consistency
import Waveform.Proofs.Decimal.Signs

/-!
# Samples that are not finite show in the energy

Both rules add up one term for each step, and every sample is an operand of some term: the first and
the last one, those at even and at odd places, and the one that an even number of samples leaves
over. Squares, weights and the distance of the samples never turn a sample that is not finite into a
finite term, and a sum with such a term stays infinite or undefined. So a finite energy or average
power vouches for all samples, and a signal of infinite duration is never classed as one of finite
power over a sample that is not finite. Main statement: `finite_vouches_for_samples`.
-/

namespace Waveform.Energy

open Waveform.Decimal Waveform.Sampling Waveform.Formula

variable {dt : Float}

/-! ### Terms -/

theorem isFinite_of_square {x : Float} (hfinite : (square x).isFinite) : x.isFinite :=
  (isFinite_of_mul hfinite).1

theorem isFinite_of_trapezoid {a b : Float} (hfinite : (trapezoid dt a b).isFinite) :
    a.isFinite ∧ b.isFinite := by
  obtain ⟨hmean, -⟩ := isFinite_of_mul hfinite
  obtain ⟨ha, hb⟩ := isFinite_of_add (isFinite_of_div hmean)
  exact ⟨isFinite_of_square ha, isFinite_of_square hb⟩

theorem isFinite_of_closingTrapezoid {a b : Float}
    (hfinite : (closingTrapezoid dt a b).isFinite) : a.isFinite ∧ b.isFinite := by
  obtain ⟨hsquares, -⟩ := isFinite_of_mul (isFinite_of_div hfinite)
  obtain ⟨ha, hb⟩ := isFinite_of_add hsquares
  exact ⟨isFinite_of_square ha, isFinite_of_square hb⟩

theorem isFinite_of_parabola {a b c : Float} (hfinite : (parabola dt a b c).isFinite) :
    a.isFinite ∧ b.isFinite ∧ c.isFinite := by
  obtain ⟨hsquares, -⟩ := isFinite_of_mul (isFinite_of_div hfinite)
  obtain ⟨hleft, hc⟩ := isFinite_of_add hsquares
  obtain ⟨ha, hweighted⟩ := isFinite_of_add hleft
  obtain ⟨-, hb⟩ := isFinite_of_mul hweighted
  exact ⟨isFinite_of_square ha, isFinite_of_square hb, isFinite_of_square hc⟩

theorem square_not_lt_zero (x : Float) : ¬square x < 0 :=
  not_lt_zero_mul Iff.rfl

theorem trapezoid_not_lt_zero (hdt : ¬dt < 0) (a b : Float) : ¬trapezoid dt a b < 0 := by
  have hsquares := not_lt_zero_add (square_not_lt_zero a) (square_not_lt_zero b)
  have hmean := not_lt_zero_div hsquares (show 0 < ((2 : Nat) : Float) by decide)
  exact not_lt_zero_mul (iff_of_false hmean hdt)

theorem closingTrapezoid_not_lt_zero (hdt : ¬dt < 0) (a b : Float) :
    ¬closingTrapezoid dt a b < 0 := by
  have hsquares := not_lt_zero_add (square_not_lt_zero a) (square_not_lt_zero b)
  have harea := not_lt_zero_mul (iff_of_false hsquares hdt)
  exact not_lt_zero_div harea (by decide)

theorem parabola_not_lt_zero (hdt : ¬dt < 0) (a b c : Float) : ¬parabola dt a b c < 0 := by
  have hweighted : ¬((4 : Nat) : Float) * square b < 0 :=
    not_lt_zero_mul (iff_of_false (by decide) (square_not_lt_zero b))
  have hleft := not_lt_zero_add (square_not_lt_zero a) hweighted
  have hsquares := not_lt_zero_add hleft (square_not_lt_zero c)
  have harea := not_lt_zero_mul (iff_of_false hsquares hdt)
  exact not_lt_zero_div harea (by decide)

/-! ### The trapezoidal rule -/

theorem isFinite_of_foldl {terms : List Float} {sum : Float}
    (hfinite : (terms.foldl (· + ·) sum).isFinite) :
    sum.isFinite ∧ ∀ term ∈ terms, term.isFinite := by
  induction terms generalizing sum with
  | nil => exact ⟨hfinite, by simp⟩
  | cons term rest ih =>
    obtain ⟨hnext, hrest⟩ := ih hfinite
    obtain ⟨hsum, hterm⟩ := isFinite_of_add hnext
    exact ⟨hsum, List.forall_mem_cons.mpr ⟨hterm, hrest⟩⟩

theorem foldl_not_lt_zero {terms : List Float} {sum : Float} (hsum : ¬sum < 0)
    (hterms : ∀ term ∈ terms, ¬term < 0) : ¬terms.foldl (· + ·) sum < 0 := by
  induction terms generalizing sum with
  | nil => exact hsum
  | cons term rest ih =>
    obtain ⟨hterm, hrest⟩ := List.forall_mem_cons.mp hterms
    exact ih (not_lt_zero_add hsum hterm) hrest

/-- Each of two or more samples is an end of a trapezoid. -/
theorem isFinite_of_trapezoids {values : List Float} (hlength : 2 ≤ values.length)
    (hterms : ∀ term ∈ List.zipWith (trapezoid dt) values values.tail, term.isFinite) :
    ∀ value ∈ values, value.isFinite := by
  induction values with
  | nil => simp
  | cons a rest ih =>
    cases rest with
    | nil => exact absurd hlength (by simp)
    | cons b rest =>
      obtain ⟨hterm, hrest⟩ := List.forall_mem_cons.mp hterms
      obtain ⟨ha, hb⟩ := isFinite_of_trapezoid hterm
      refine List.forall_mem_cons.mpr ⟨ha, ?_⟩
      cases rest with
      | nil => simpa using hb
      | cons c rest => exact ih (by simp) hrest

theorem isFinite_of_trapezoidal {values : List Float} (hlength : 2 ≤ values.length)
    (hfinite : (trapezoidal values dt).isFinite) : ∀ value ∈ values, value.isFinite :=
  isFinite_of_trapezoids hlength (isFinite_of_foldl hfinite).2

theorem trapezoidal_not_lt_zero (hdt : ¬dt < 0) (values : List Float) :
    ¬trapezoidal values dt < 0 := by
  refine foldl_not_lt_zero (by decide) fun term hterm => ?_
  rw [← List.map_uncurry_zip_eq_zipWith] at hterm
  obtain ⟨⟨a, b⟩, -, rfl⟩ := List.mem_map.mp hterm
  exact trapezoid_not_lt_zero hdt a b

/-! ### Simpson's rule -/

/-- No parabola and no closing trapezoid are left for fewer than two samples alone. -/
theorem length_lt_two {values : List Float}
    (hparabola : ∀ a b c rest, values = a :: b :: c :: rest → False)
    (hclosing : ∀ a b, values = [a, b] → False) : values.length < 2 := by
  match values with
  | [] => exact Nat.zero_lt_two
  | [a] => exact Nat.one_lt_two
  | [a, b] => exact (hclosing a b rfl).elim
  | a :: b :: c :: rest => exact (hparabola a b c rest rfl).elim

/-- Two or more samples all reach the sum, which keeps what it had. -/
theorem isFinite_of_simpsonFrom {sum : Float} {values : List Float}
    (hfinite : (simpsonFrom dt sum values).isFinite) :
    sum.isFinite ∧ (2 ≤ values.length → ∀ value ∈ values, value.isFinite) := by
  induction sum, values using simpsonFrom.induct dt with
  | case1 sum a b c rest ih =>
    obtain ⟨hnext, hrest⟩ := ih hfinite
    obtain ⟨hsum, hterm⟩ := isFinite_of_add hnext
    obtain ⟨ha, hb, hc⟩ := isFinite_of_parabola hterm
    refine ⟨hsum, fun _ => ?_⟩
    cases rest with
    | nil => simp [ha, hb, hc]
    | cons d rest => simpa [ha, hb, hc] using hrest (by simp)
  | case2 sum a b =>
    obtain ⟨hsum, hterm⟩ := isFinite_of_add hfinite
    obtain ⟨ha, hb⟩ := isFinite_of_closingTrapezoid hterm
    exact ⟨hsum, fun _ => by simp [ha, hb]⟩
  | case3 values sum hparabola hclosing =>
    rw [simpsonFrom.eq_3 dt sum values hparabola hclosing] at hfinite
    exact ⟨hfinite, fun hlength => absurd hlength (length_lt_two hparabola hclosing).not_ge⟩

theorem simpsonFrom_not_lt_zero (hdt : ¬dt < 0) {sum : Float} (hsum : ¬sum < 0)
    (values : List Float) : ¬simpsonFrom dt sum values < 0 := by
  induction sum, values using simpsonFrom.induct dt with
  | case1 sum a b c rest ih =>
    exact ih (not_lt_zero_add hsum (parabola_not_lt_zero hdt a b c))
  | case2 sum a b => exact not_lt_zero_add hsum (closingTrapezoid_not_lt_zero hdt a b)
  | case3 values sum hparabola hclosing =>
    rw [simpsonFrom.eq_3 dt sum values hparabola hclosing]
    exact hsum

/-! ### Either rule -/

theorem isFinite_of_integrate {method : Method} {values : List Float} (hlength : 2 ≤ values.length)
    (hfinite : (integrate method values dt).isFinite) : ∀ value ∈ values, value.isFinite := by
  cases method with
  | trapezoidal => exact isFinite_of_trapezoidal hlength hfinite
  | simpson =>
    have hfinite : (simpson values dt).isFinite := hfinite
    rw [simpson] at hfinite
    split at hfinite
    · exact isFinite_of_trapezoidal hlength hfinite
    · exact (isFinite_of_simpsonFrom hfinite).2 hlength

theorem integrate_not_lt_zero (hdt : ¬dt < 0) (method : Method) (values : List Float) :
    ¬integrate method values dt < 0 := by
  cases method with
  | trapezoidal => exact trapezoidal_not_lt_zero hdt values
  | simpson =>
    show ¬simpson values dt < 0
    rw [simpson]
    split
    · exact trapezoidal_not_lt_zero hdt values
    · exact simpsonFrom_not_lt_zero hdt (by decide) values

/-! ### Analyses -/

section Analyses

variable {analysis : Analysis} {program : Program} {options : Options} {grid : TimeGrid}

theorem isFinite_of_windowEnergy (h : analysis.Measures program options grid)
    (hfinite : analysis.windowEnergy.isFinite) :
    ∀ value ∈ grid.times.map program.evaluate, value.isFinite := by
  rw [h.windowEnergy_eq] at hfinite
  exact isFinite_of_integrate (two_le_length_map_times grid program.evaluate) hfinite

/-- The average power divides an energy by the length of the window, which hides no sample. -/
theorem isFinite_of_averagePower (h : analysis.Measures program options grid)
    (hthreshold : options.magnitudeThreshold = none) (hfinite : analysis.averagePower.isFinite) :
    ∀ value ∈ grid.times.map program.evaluate, value.isFinite := by
  obtain ⟨hpower, -⟩ := h.byDuration hthreshold
  have hquotient :=
    averagePowerWith_eq_ok .trapezoidal grid (map_times_ne_nil grid program.evaluate)
  rw [Except.ok.inj (hpower.symm.trans hquotient)] at hfinite
  exact isFinite_of_integrate (two_le_length_map_times grid program.evaluate)
    (isFinite_of_div hfinite)

end Analyses

/--
A sample that is not finite cannot be hidden. A finite energy of at least two samples, at a distance
that is not negative, comes from finite samples only and is not negative. So if an analysis under
valid options, for infinite duration and without a threshold, has a sample that is not finite, then
neither its energy nor its average power is finite and its class is that of infinite power; and the
class of finite power vouches for all samples.
-/
theorem finite_vouches_for_samples :
    (∀ (method : Method) (values : List Float) (dt : Float), 2 ≤ values.length → 0 ≤ dt →
      (integrate method values dt).isFinite →
        (∀ value ∈ values, value.isFinite) ∧ ¬integrate method values dt < 0) ∧
    ∀ (program : Program) (options : Options), options.validate = .ok () →
      options.duration = .infinite → options.magnitudeThreshold = none →
      ∃ grid analysis, options.grid = .ok grid ∧
        Analysis.ofProgram program options = .ok analysis ∧
        analysis.series = Series.sample program.evaluate grid ∧
        ((∃ value ∈ analysis.series.values, ¬value.isFinite) →
          ¬analysis.windowEnergy.isFinite ∧ ¬analysis.averagePower.isFinite ∧
          analysis.classification.signalClass = .infinitePower) ∧
        (analysis.classification.signalClass = .finitePower →
          ∀ value ∈ analysis.series.values, value.isFinite) := by
  refine ⟨fun method values dt hlength hdt hfinite =>
    ⟨isFinite_of_integrate hlength hfinite,
      integrate_not_lt_zero (not_lt_zero_of_le hdt) method values⟩, ?_⟩
  intro program options hvalid hduration hthreshold
  obtain ⟨grid, hgrid⟩ := Options.exists_grid hvalid
  obtain ⟨analysis, hanalysis, hmeasures⟩ := Analysis.ofProgram_of_grid program hgrid
  have hvalues : analysis.series.values = grid.times.map program.evaluate := by
    rw [hmeasures.series_eq, Series.values_sample]
  have hclass : analysis.classification.signalClass =
      if analysis.averagePower.isFinite then .finitePower else .infinitePower := by
    rw [(hmeasures.byDuration hthreshold).2, hduration, classify_infinite]
  refine ⟨grid, analysis, hgrid, hanalysis, hmeasures.series_eq, ?_, fun hfinitePower => ?_⟩
  · rintro ⟨value, hvalue, hnonFinite⟩
    rw [hvalues] at hvalue
    have hpower : ¬analysis.averagePower.isFinite := fun hfinite =>
      hnonFinite (isFinite_of_averagePower hmeasures hthreshold hfinite value hvalue)
    refine ⟨fun hfinite => ?_, hpower, ?_⟩
    · exact hnonFinite (isFinite_of_windowEnergy hmeasures hfinite value hvalue)
    · rw [hclass, if_neg hpower]
  · rw [hvalues]
    refine isFinite_of_averagePower hmeasures hthreshold ?_
    by_contra hpower
    rw [hclass, if_neg hpower] at hfinitePower
    cases hfinitePower

/-- The reciprocal of time, which three points around zero meet at its pole. -/
def reciprocal : Program := ⟨"1/t", .binary .div (.literal 1) .time, 3⟩

def identity : Program := ⟨"t", .time, 1⟩

def aroundZero : Options := { Options.standard with window := ⟨-1, 1⟩, sampleCount := 3 }

theorem finite_vouches_for_samples_aroundZero :
    (integrate .simpson [1, -2, 3, -0.5] 0.25).isFinite ∧
      ¬integrate .simpson [1, -2, 3, -0.5] 0.25 < 0 ∧ aroundZero.validate = .ok () ∧
      (∃ analysis, Analysis.ofProgram reciprocal aroundZero = .ok analysis ∧
        (∃ value ∈ analysis.series.values, ¬value.isFinite) ∧
        analysis.classification.signalClass = .infinitePower) ∧
      ∃ analysis, Analysis.ofProgram identity aroundZero = .ok analysis ∧
        analysis.classification.signalClass = .finitePower ∧
        ∀ value ∈ analysis.series.values, value.isFinite := by
  obtain ⟨hrule, hanalyses⟩ := finite_vouches_for_samples
  have hfinite : (integrate .simpson [1, -2, 3, -0.5] 0.25).isFinite := by decide +kernel
  have hvalid : aroundZero.validate = .ok () := by decide
  obtain ⟨-, hnonneg⟩ :=
    hrule .simpson [1, -2, 3, -0.5] 0.25 (by decide) (by decide) hfinite
  refine ⟨hfinite, hnonneg, hvalid, ?_, ?_⟩
  · obtain ⟨grid, analysis, hgrid, hanalysis, hseries, hexposed, -⟩ :=
      hanalyses reciprocal aroundZero hvalid rfl rfl
    obtain ⟨hwindow, hcount⟩ := Options.grid_eq_ok.mp hgrid
    have hsample : ∃ value ∈ analysis.series.values, ¬value.isFinite := by
      rw [hseries, Series.values_sample, TimeGrid.times, hwindow, hcount]
      decide +kernel
    exact ⟨analysis, hanalysis, hsample, (hexposed hsample).2.2⟩
  · obtain ⟨grid, analysis, -, hanalysis, -, -, hvouches⟩ :=
      hanalyses identity aroundZero hvalid rfl rfl
    have hclass : (Analysis.ofProgram identity aroundZero).map
        (fun analysis => analysis.classification.signalClass) = .ok .finitePower := by
      decide +kernel
    rw [hanalysis] at hclass
    have hclass : analysis.classification.signalClass = .finitePower := Except.ok.inj hclass
    exact ⟨analysis, hanalysis, hclass, hvouches hclass⟩

end Waveform.Energy
