import Waveform.Proofs.Decimal.Order
import Waveform.Proofs.Decimal.Shortest

/-!
# Rounding to a decimal grid

A magnitude goes to the nearest point of a grid, a half to the even one. So rounding moves it by
half a unit at most, keeps the order of magnitudes on one grid, and does not take a magnitude past
a point of the grid. Powers of ten that are not smaller than the unit are points of the grid, which
keeps the order between two grids when a power of ten lies between the magnitudes.

A count of significant digits chooses the grid by the leading digit of the magnitude. When rounding
reaches the next power of ten, the numeral moves to the next grid with its value.
-/

namespace Waveform.Decimal

/-! ### The nearest natural number -/

theorem Nearest.mono {nearest nearest' : Nat} {x y : ℚ} (hx : Nearest nearest x)
    (hy : Nearest nearest' y) (hle : x ≤ y) : nearest ≤ nearest' := by
  by_contra hlt
  have hsucc : (nearest' : ℚ) + 1 ≤ nearest := by exact_mod_cast not_le.mp hlt
  have hlow := hx.low_le
  have hhigh := hy.le_high
  have heven := hx.even_of_eq_low (by linarith)
  have heven' := hy.even_of_eq_high (by linarith)
  have hnext : nearest = nearest' + 1 := by
    have hcast : (nearest : ℚ) = nearest' + 1 := by linarith
    exact_mod_cast hcast
  omega

theorem nearest_natCast (n : Nat) : Nearest n n := .of_close (by linarith) (by linarith)

namespace Magnitude

variable {magnitude other : Magnitude} {unit unit' power : Int}

theorem value_eq_zero_iff : magnitude.value = 0 ↔ magnitude.mantissa = 0 := by
  have hscale : (2 : ℚ) ^ magnitude.exponent ≠ 0 := by positivity
  rw [value, mul_eq_zero, or_iff_left hscale, Nat.cast_eq_zero]

theorem value_pos_iff : 0 < magnitude.value ↔ 0 < magnitude.mantissa := by
  rw [magnitude.value_nonneg.lt_iff_ne', Nat.pos_iff_ne_zero, Ne, value_eq_zero_iff]

/-! ### Points of a grid -/

/-- The nearest point of the grid of the multiples of `10 ^ unit`. -/
def onGrid (magnitude : Magnitude) (unit : Int) : Numeral := ⟨(magnitude.ratio unit).round, unit⟩

theorem nearest_onGrid (magnitude : Magnitude) (unit : Int) :
    Nearest (magnitude.onGrid unit).coefficient (magnitude.value / 10 ^ unit) := by
  rw [← ratio_value]
  exact Ratio.nearest_round (ratio_denominator_pos magnitude unit)

theorem value_onGrid (magnitude : Magnitude) (unit : Int) :
    (magnitude.onGrid unit).value = (magnitude.onGrid unit).coefficient * 10 ^ unit := rfl

theorem onGrid_nonneg (magnitude : Magnitude) (unit : Int) : 0 ≤ (magnitude.onGrid unit).value := by
  rw [value_onGrid]
  positivity

theorem onGrid_of_zero (hzero : magnitude.value = 0) (unit : Int) :
    (magnitude.onGrid unit).value = 0 := by
  have hnearest := magnitude.nearest_onGrid unit
  have hnone : Nearest 0 (magnitude.value / 10 ^ unit) := by
    rw [hzero, zero_div]
    exact nearest_natCast 0
  rw [value_onGrid, Nat.le_zero.mp (hnearest.mono hnone le_rfl), Nat.cast_zero, zero_mul]

theorem abs_onGrid_sub_le (magnitude : Magnitude) (unit : Int) :
    |(magnitude.onGrid unit).value - magnitude.value| ≤ 1 / 2 * 10 ^ unit := by
  have hunit : (0 : ℚ) < 10 ^ unit := by positivity
  have hnearest := magnitude.nearest_onGrid unit
  have hlow := hnearest.low_le
  have hhigh := hnearest.le_high
  rw [le_div_iff₀ hunit] at hlow
  rw [div_le_iff₀ hunit] at hhigh
  rw [value_onGrid, abs_le]
  constructor <;> linarith

theorem onGrid_mono (hle : magnitude.value ≤ other.value) (unit : Int) :
    (magnitude.onGrid unit).value ≤ (other.onGrid unit).value := by
  have hunit : (0 : ℚ) < 10 ^ unit := by positivity
  have hdiv : magnitude.value / 10 ^ unit ≤ other.value / 10 ^ unit :=
    div_le_div_of_nonneg_right hle hunit.le
  have hcoefficient := (magnitude.nearest_onGrid unit).mono (other.nearest_onGrid unit) hdiv
  rw [value_onGrid, value_onGrid]
  exact mul_le_mul_of_nonneg_right (Nat.cast_le.mpr hcoefficient) hunit.le

theorem pow_eq_mul_pow (hle : unit ≤ power) :
    (10 : ℚ) ^ power = (10 ^ (power - unit).toNat : ℕ) * 10 ^ unit := by
  push_cast
  rw [← zpow_natCast, ← zpow_add₀ (by norm_num)]
  congr 1
  omega

theorem coefficient_le_pow (hle : unit ≤ power) (hvalue : magnitude.value ≤ 10 ^ power) :
    (magnitude.onGrid unit).coefficient ≤ 10 ^ (power - unit).toNat := by
  rw [pow_eq_mul_pow hle, ← div_le_iff₀ (by positivity)] at hvalue
  exact (magnitude.nearest_onGrid unit).mono (nearest_natCast _) hvalue

theorem pow_le_coefficient (hle : unit ≤ power) (hvalue : 10 ^ power ≤ magnitude.value) :
    10 ^ (power - unit).toNat ≤ (magnitude.onGrid unit).coefficient := by
  rw [pow_eq_mul_pow hle, ← le_div_iff₀ (by positivity)] at hvalue
  exact (nearest_natCast _).mono (magnitude.nearest_onGrid unit) hvalue

theorem onGrid_le_pow (hle : unit ≤ power) (hvalue : magnitude.value ≤ 10 ^ power) :
    (magnitude.onGrid unit).value ≤ 10 ^ power := by
  rw [value_onGrid, pow_eq_mul_pow hle]
  exact mul_le_mul_of_nonneg_right (Nat.cast_le.mpr (coefficient_le_pow hle hvalue)) (by positivity)

theorem pow_le_onGrid (hle : unit ≤ power) (hvalue : 10 ^ power ≤ magnitude.value) :
    10 ^ power ≤ (magnitude.onGrid unit).value := by
  rw [value_onGrid, pow_eq_mul_pow hle]
  exact mul_le_mul_of_nonneg_right (Nat.cast_le.mpr (pow_le_coefficient hle hvalue)) (by positivity)

/-- On any two grids the order is kept across a power of ten. -/
theorem onGrid_le_onGrid_of_pow (hle : unit ≤ power) (hle' : unit' ≤ power)
    (hlow : magnitude.value ≤ 10 ^ power) (hhigh : 10 ^ power ≤ other.value) :
    (magnitude.onGrid unit).value ≤ (other.onGrid unit').value :=
  (onGrid_le_pow hle hlow).trans (pow_le_onGrid hle' hhigh)

/-! ### Places and digits -/

theorem withPlaces_eq (magnitude : Magnitude) (places : Nat) :
    magnitude.withPlaces places = magnitude.onGrid (-places) := rfl

theorem lt_pow_decade (magnitude : Magnitude) : magnitude.value < 10 ^ (magnitude.decade + 1) := by
  unfold decade
  simp only
  split
  · have hdenominator := ratio_denominator_pos magnitude 0
    generalize hratio : magnitude.ratio 0 = ratio at *
    rw [value_eq_ratio magnitude 0, zpow_zero, mul_one, hratio]
    have hdigits : 0 < digitCount ratio.denominator := Nat.length_toDigits_pos
    rw [Ratio.value, div_lt_iff₀ (Nat.cast_pos.mpr hdenominator)]
    calc (ratio.numerator : ℚ)
        < (10 ^ digitCount ratio.numerator : ℕ) := Nat.cast_lt.mpr (lt_pow_digitCount _)
      _ = 10 ^ ((digitCount ratio.numerator : ℤ) - digitCount ratio.denominator + 1) *
          (10 ^ (digitCount ratio.denominator - 1) : ℕ) := by
          push_cast
          rw [← zpow_natCast, ← zpow_natCast, ← zpow_add₀ (by norm_num)]
          congr 1
          omega
      _ ≤ 10 ^ ((digitCount ratio.numerator : ℤ) - digitCount ratio.denominator + 1) *
          ratio.denominator :=
          mul_le_mul_of_nonneg_left (Nat.cast_le.mpr (pow_digitCount_le hdenominator))
            (by positivity)
  · next hatUpper =>
    generalize (digitCount (magnitude.ratio 0).numerator : ℤ) -
      digitCount (magnitude.ratio 0).denominator = upper at *
    rw [value_eq_ratio magnitude upper, sub_add_cancel]
    refine mul_lt_of_lt_one_left (by positivity) ?_
    rw [Ratio.value, div_lt_one (Nat.cast_pos.mpr (ratio_denominator_pos magnitude upper))]
    exact Nat.cast_lt.mpr (not_le.mp hatUpper)

theorem le_decade (hle : 10 ^ power ≤ magnitude.value) : power ≤ magnitude.decade := by
  have hlt := hle.trans_lt magnitude.lt_pow_decade
  rw [zpow_lt_zpow_iff_right₀ (by norm_num)] at hlt
  omega

theorem decade_lt (hpos : 0 < magnitude.mantissa) (hlt : magnitude.value < 10 ^ power) :
    magnitude.decade < power := by
  have hdecade := (pow_decade_le hpos).trans_lt hlt
  rwa [zpow_lt_zpow_iff_right₀ (by norm_num)] at hdecade

theorem withDigits_eq (hpos : 0 < magnitude.mantissa) (places : Nat) :
    magnitude.withDigits (places + 1) =
      if (magnitude.onGrid (magnitude.decade - places)).coefficient = 10 ^ (places + 1)
      then ⟨10 ^ places, magnitude.decade - places + 1⟩
      else magnitude.onGrid (magnitude.decade - places) := by
  have hunit : magnitude.decade - (((places + 1 : ℕ) : Int) - 1) = magnitude.decade - places := by
    omega
  rw [withDigits, if_neg hpos.ne', hunit]
  rfl

/--
With one digit and a number of decimals, a numeral is on the grid of the last one and has that many
digits. The leading digit is in the decade of the magnitude or, if rounding has reached the next
power of ten, one above.
-/
theorem withDigits_spec (hpos : 0 < magnitude.mantissa) (places : Nat) :
    (magnitude.withDigits (places + 1)).value =
        (magnitude.onGrid (magnitude.decade - places)).value ∧
      10 ^ places ≤ (magnitude.withDigits (places + 1)).coefficient ∧
      (magnitude.withDigits (places + 1)).coefficient < 10 ^ (places + 1) ∧
      magnitude.decade ≤ (magnitude.withDigits (places + 1)).exponent + places ∧
      (magnitude.withDigits (places + 1)).exponent + places ≤ magnitude.decade + 1 := by
  have hlow := pow_le_coefficient (Int.sub_le_self magnitude.decade (Int.natCast_nonneg places))
    (pow_decade_le hpos)
  have hhigh := coefficient_le_pow
    (Int.le_add_one (Int.sub_le_self magnitude.decade (Int.natCast_nonneg places)))
    magnitude.lt_pow_decade.le
  have hplaces : (magnitude.decade - (magnitude.decade - (places : Int))).toNat = places := by omega
  have hplaces' : (magnitude.decade + 1 - (magnitude.decade - (places : Int))).toNat =
      places + 1 := by omega
  rw [hplaces] at hlow
  rw [hplaces'] at hhigh
  rw [withDigits_eq hpos]
  split
  · next hcarry =>
    refine ⟨?_, le_rfl, Nat.pow_lt_pow_succ (by decide), ?_, ?_⟩
    · rw [value_onGrid, hcarry, Numeral.value, zpow_add_one₀ (by norm_num)]
      push_cast
      ring
    · show magnitude.decade ≤ magnitude.decade - places + 1 + places
      omega
    · show magnitude.decade - places + 1 + (places : Int) ≤ magnitude.decade + 1
      omega
  · next hcarry =>
    refine ⟨rfl, hlow, lt_of_le_of_ne hhigh hcarry, ?_, ?_⟩
    · show magnitude.decade ≤ magnitude.decade - places + places
      omega
    · show magnitude.decade - places + (places : Int) ≤ magnitude.decade + 1
      omega

end Magnitude

end Waveform.Decimal
