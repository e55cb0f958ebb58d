import Waveform.Decimal.Selection
import Waveform.Proofs.Decimal.Bits
import Mathlib.Algebra.Order.Field.Rat
import Mathlib.Algebra.Order.Field.Power
import Mathlib.Tactic.Linarith
import Mathlib.Tactic.Positivity
import Mathlib.Tactic.FieldSimp
import Mathlib.Tactic.Ring

/-!
# The numbers that round to a magnitude

A magnitude captures the numbers between the halfway points to its two neighbours, and the halfway
points themselves if its mantissa is even. This is what decimal printing checks on a grid. The
intervals of the canonical magnitudes do not overlap, so a number is captured by one of them only.
-/

namespace Waveform.Decimal

/-! ### Values -/

def Ratio.value (ratio : Ratio) : ℚ := ratio.numerator / ratio.denominator

def Numeral.value (numeral : Numeral) : ℚ := numeral.coefficient * 10 ^ numeral.exponent

theorem natCast_div_eq (numerator : Nat) {denominator : Nat} (hpos : 0 < denominator) :
    (numerator : ℚ) / denominator =
      (numerator / denominator : ℕ) + ((numerator % denominator : ℕ) : ℚ) / denominator := by
  have hne : (denominator : ℚ) ≠ 0 := Nat.cast_ne_zero.mpr hpos.ne'
  rw [div_eq_iff hne, add_mul, div_mul_cancel₀ _ hne]
  exact_mod_cast (Nat.div_add_mod' numerator denominator).symm

theorem div_lt_half_iff {numerator denominator : Nat} (hpos : 0 < denominator) :
    (numerator : ℚ) / denominator < 1 / 2 ↔ 2 * numerator < denominator := by
  rw [div_lt_div_iff₀ (Nat.cast_pos.mpr hpos) two_pos, one_mul, mul_comm]
  exact_mod_cast Iff.rfl

theorem half_lt_div_iff {numerator denominator : Nat} (hpos : 0 < denominator) :
    1 / 2 < (numerator : ℚ) / denominator ↔ denominator < 2 * numerator := by
  rw [div_lt_div_iff₀ two_pos (Nat.cast_pos.mpr hpos), one_mul, mul_comm]
  exact_mod_cast Iff.rfl

theorem zpow_eq_div {base : ℚ} (hbase : base ≠ 0) (exponent : Int) :
    base ^ exponent = base ^ exponent.toNat / base ^ (-exponent).toNat := by
  rw [← zpow_natCast, ← zpow_natCast, ← zpow_sub₀ hbase]
  congr 1
  omega

namespace Magnitude

def value (magnitude : Magnitude) : ℚ := magnitude.mantissa * 2 ^ magnitude.exponent

theorem value_zero (exponent : Int) : value ⟨0, exponent⟩ = 0 := by
  rw [value, Nat.cast_zero, zero_mul]

theorem ratio_denominator_pos (magnitude : Magnitude) (unit : Int) :
    0 < (magnitude.ratio unit).denominator :=
  Nat.mul_pos (Nat.pow_pos (by decide)) (Nat.pow_pos (by decide))

theorem ratio_value (magnitude : Magnitude) (unit : Int) :
    (magnitude.ratio unit).value = magnitude.value / 10 ^ unit := by
  rw [Ratio.value, ratio, value]
  simp only [Nat.pow_eq, Nat.cast_mul, Nat.cast_pow, Nat.cast_ofNat]
  rw [zpow_eq_div two_ne_zero magnitude.exponent, zpow_eq_div (by norm_num) unit]
  field_simp

theorem value_eq_quarters (magnitude : Magnitude) :
    magnitude.value = 4 * magnitude.mantissa * 2 ^ (magnitude.exponent - 2) := by
  rw [value, zpow_sub₀ two_ne_zero]
  ring

/-! ### Captured numbers -/

/-- The numbers that round to a magnitude. -/
structure Captures (magnitude : Magnitude) (x : ℚ) : Prop where
  low_le : ((4 * magnitude.mantissa - magnitude.quartersBelow : ℕ) : ℚ) *
    2 ^ (magnitude.exponent - 2) ≤ x
  le_high : x ≤ ((4 * magnitude.mantissa + 2 : ℕ) : ℚ) * 2 ^ (magnitude.exponent - 2)
  even_of_eq_low : x = ((4 * magnitude.mantissa - magnitude.quartersBelow : ℕ) : ℚ) *
    2 ^ (magnitude.exponent - 2) → magnitude.mantissa % 2 = 0
  even_of_eq_high : x = ((4 * magnitude.mantissa + 2 : ℕ) : ℚ) *
    2 ^ (magnitude.exponent - 2) → magnitude.mantissa % 2 = 0

theorem captures_of_readsBack {magnitude : Magnitude} {unit : Int} {coefficient : Nat}
    (hreads : magnitude.readsBack unit coefficient = true) :
    magnitude.Captures (Numeral.value ⟨coefficient, unit⟩) := by
  have hpos : (0 : ℚ) < (magnitude.quarterStep.ratio unit).denominator :=
    Nat.cast_pos.mpr (ratio_denominator_pos _ _)
  have hunit : (0 : ℚ) < 10 ^ unit := by positivity
  have hstep : ((magnitude.quarterStep.ratio unit).numerator : ℚ) =
      2 ^ (magnitude.exponent - 2) / 10 ^ unit *
        (magnitude.quarterStep.ratio unit).denominator := by
    rw [← div_eq_iff hpos.ne']
    show (magnitude.quarterStep.ratio unit).value = _
    rw [ratio_value, value, quarterStep, Nat.cast_one, one_mul]
  have hle (quarters : Nat) :
      (quarters * (magnitude.quarterStep.ratio unit).numerator ≤
        coefficient * (magnitude.quarterStep.ratio unit).denominator ↔
      (quarters : ℚ) * 2 ^ (magnitude.exponent - 2) ≤ coefficient * 10 ^ unit) := by
    rw [← Nat.cast_le (α := ℚ), Nat.cast_mul, Nat.cast_mul, hstep, ← mul_assoc,
      mul_le_mul_iff_left₀ hpos, ← mul_div_assoc, div_le_iff₀ hunit]
  have hge (quarters : Nat) :
      (coefficient * (magnitude.quarterStep.ratio unit).denominator ≤
        quarters * (magnitude.quarterStep.ratio unit).numerator ↔
      (coefficient : ℚ) * 10 ^ unit ≤ quarters * 2 ^ (magnitude.exponent - 2)) := by
    rw [← Nat.cast_le (α := ℚ), Nat.cast_mul, Nat.cast_mul, hstep, ← mul_assoc,
      mul_le_mul_iff_left₀ hpos, ← mul_div_assoc, le_div_iff₀ hunit]
  unfold readsBack at hreads
  simp only at hreads
  split at hreads
  · next heven =>
    rw [Bool.and_eq_true, decide_eq_true_eq, decide_eq_true_eq] at hreads
    exact ⟨(hle _).mp hreads.1, (hge _).mp hreads.2, fun _ => heven, fun _ => heven⟩
  · rw [Bool.and_eq_true, decide_eq_true_eq, decide_eq_true_eq] at hreads
    refine ⟨(hle _).mp hreads.1.le, (hge _).mp hreads.2.le, fun hlow => ?_, fun hhigh => ?_⟩
    · exact absurd ((hge _).mpr hlow.le) (Nat.not_le.mpr hreads.1)
    · exact absurd ((hle _).mpr hhigh.ge) (Nat.not_le.mpr hreads.2)

/-! ### Intervals do not overlap -/

theorem quartersBelow_le (magnitude : Magnitude) : magnitude.quartersBelow ≤ 2 := by
  rw [quartersBelow]
  split <;> decide

/-- What lies above the numbers that round to a magnitude meets them in a halfway point at most. -/
theorem Captures.high_eq {magnitude : Magnitude} {x : ℚ} {quarters : Nat}
    (hcaptures : magnitude.Captures x) (habove : 4 * magnitude.mantissa + 2 ≤ quarters)
    (hlow : (quarters : ℚ) * 2 ^ (magnitude.exponent - 2) ≤ x) :
    4 * magnitude.mantissa + 2 = quarters ∧ magnitude.mantissa % 2 = 0 := by
  have hstep : (0 : ℚ) < 2 ^ (magnitude.exponent - 2) := by positivity
  have hle : ((4 * magnitude.mantissa + 2 : ℕ) : ℚ) * 2 ^ (magnitude.exponent - 2) ≤
      quarters * 2 ^ (magnitude.exponent - 2) :=
    mul_le_mul_of_nonneg_right (Nat.cast_le.mpr habove) hstep.le
  have hpoint := le_antisymm hcaptures.le_high (hle.trans hlow)
  have hpoint' := le_antisymm (hcaptures.le_high.trans hle) hlow
  refine ⟨?_, hcaptures.even_of_eq_high hpoint⟩
  have hsame := mul_right_cancel₀ hstep.ne' (hpoint.symm.trans hpoint')
  exact Nat.cast_injective hsame

theorem Captures.not_mantissa_lt {magnitude other : Magnitude} {x : ℚ}
    (hexponent : magnitude.exponent = other.exponent) (hcaptures : magnitude.Captures x)
    (hother : other.Captures x) : ¬magnitude.mantissa < other.mantissa := by
  intro hlt
  have hbelow := other.quartersBelow_le
  have hlow := hother.low_le
  have heven' := hother.even_of_eq_low
  rw [← hexponent] at hlow heven'
  obtain ⟨hsame, heven⟩ := hcaptures.high_eq (by omega) hlow
  -- The halfway point belongs to both, but of two neighbours only one has an even mantissa.
  have hodd := heven' (le_antisymm (hsame ▸ hcaptures.le_high) hlow)
  omega

theorem Captures.not_exponent_lt {magnitude other : Magnitude} {x : ℚ}
    (hcanonical : magnitude.Canonical) (hcanonical' : other.Canonical)
    (hcaptures : magnitude.Captures x) (hother : other.Captures x) :
    ¬magnitude.exponent < other.exponent := by
  intro hlt
  have hleast : leastNormalMantissa = 2 ^ 52 := rfl
  have hmantissa := hcanonical.mantissa_lt
  have hexponent := hcanonical.le_exponent
  have hfull : 2 ^ 52 ≤ other.mantissa := hcanonical'.full.resolve_right (by omega)
  have hquarters : 2 ^ 54 - 1 ≤ 4 * other.mantissa - other.quartersBelow := by
    rw [quartersBelow]
    split <;> omega
  have hscaled : (2 : ℚ) * 2 ^ (magnitude.exponent - 2) ≤ 2 ^ (other.exponent - 2) := by
    rw [← zpow_one_add₀ two_ne_zero]
    exact zpow_le_zpow_right₀ one_le_two (by omega)
  have hlow : ((2 * (2 ^ 54 - 1) : ℕ) : ℚ) * 2 ^ (magnitude.exponent - 2) ≤ x := by
    calc ((2 * (2 ^ 54 - 1) : ℕ) : ℚ) * 2 ^ (magnitude.exponent - 2)
        = ((2 ^ 54 - 1 : ℕ) : ℚ) * (2 * 2 ^ (magnitude.exponent - 2)) := by push_cast; ring
      _ ≤ ((4 * other.mantissa - other.quartersBelow : ℕ) : ℚ) * 2 ^ (other.exponent - 2) :=
        mul_le_mul (Nat.cast_le.mpr hquarters) hscaled (by positivity) (by positivity)
      _ ≤ x := hother.low_le
  obtain ⟨hsame, heven⟩ := hcaptures.high_eq (by omega) hlow
  omega

/-- A number rounds to one canonical magnitude. -/
theorem Captures.unique {magnitude other : Magnitude} {x : ℚ} (hcanonical : magnitude.Canonical)
    (hcanonical' : other.Canonical) (hcaptures : magnitude.Captures x)
    (hother : other.Captures x) : magnitude = other := by
  have hlt := not_exponent_lt hcanonical hcanonical' hcaptures hother
  have hgt := not_exponent_lt hcanonical' hcanonical hother hcaptures
  have hexponent : magnitude.exponent = other.exponent := by omega
  have hless := hcaptures.not_mantissa_lt hexponent hother
  have hgreater := hother.not_mantissa_lt hexponent.symm hcaptures
  have hmantissa : magnitude.mantissa = other.mantissa := by omega
  obtain ⟨mantissa, exponent⟩ := magnitude
  obtain ⟨mantissa', exponent'⟩ := other
  simp only at hexponent hmantissa
  rw [hexponent, hmantissa]

/-- A magnitude captures every number that is close enough to it. -/
theorem captures_of_close {magnitude : Magnitude} {x : ℚ} (hpos : 0 < magnitude.mantissa)
    (hlow : magnitude.value - magnitude.quartersBelow * 2 ^ (magnitude.exponent - 2) < x)
    (hhigh : x < magnitude.value + 2 * 2 ^ (magnitude.exponent - 2)) :
    magnitude.Captures x := by
  have hquarters := magnitude.value_eq_quarters
  have hle := magnitude.quartersBelow_le
  have hlow' : ((4 * magnitude.mantissa - magnitude.quartersBelow : ℕ) : ℚ) *
      2 ^ (magnitude.exponent - 2) < x := by
    rw [Nat.cast_sub (by omega)]
    push_cast
    linarith
  have hhigh' : x < ((4 * magnitude.mantissa + 2 : ℕ) : ℚ) * 2 ^ (magnitude.exponent - 2) := by
    push_cast
    linarith
  exact ⟨hlow'.le, hhigh'.le, fun h => absurd h hlow'.ne', fun h => absurd h hhigh'.ne⟩

theorem captures_value (magnitude : Magnitude) : magnitude.Captures magnitude.value := by
  have hstep : (0 : ℚ) < 2 ^ (magnitude.exponent - 2) := by positivity
  have hquarters : 0 < magnitude.quartersBelow := by
    rw [quartersBelow]
    split <;> decide
  have hbelow : (0 : ℚ) < magnitude.quartersBelow := Nat.cast_pos.mpr hquarters
  obtain hzero | hpos := Nat.eq_zero_or_pos magnitude.mantissa
  · obtain ⟨mantissa, exponent⟩ := magnitude
    obtain rfl : mantissa = 0 := hzero
    rw [value_zero]
    refine ⟨?_, by positivity, fun _ => rfl, fun _ => rfl⟩
    rw [Nat.mul_zero, Nat.zero_sub, Nat.cast_zero, zero_mul]
  · refine captures_of_close hpos ?_ ?_
    · have := mul_pos hbelow hstep
      linarith
    · linarith

end Magnitude

end Waveform.Decimal
