import Waveform.Proofs.Decimal.Arithmetic
import Mathlib.Tactic.IntervalCases

/-!
# Numerals are read correctly

The number nearest to a numeral is the one whose magnitude captures the value of the numeral. A
short numeral is read by one multiplication or division of numbers that are exact, any other by
exact arithmetic with powers of ten, in which numerals far out of range are not computed at all.
Main statement: `Numeral.isReading_toFloat`.
-/

namespace Waveform.Decimal

open Float.Model Float.Model.UnpackedFloat

/-! ### Long numerals -/

theorem value_le_of_captures {magnitude : Magnitude} {x : ℚ} (hcanonical : magnitude.Canonical)
    (hrange : magnitude.exponent ≤ 971) (hcaptures : magnitude.Captures x) : x ≤ 2 ^ 1024 := by
  have hmantissa := hcanonical.mantissa_lt
  have hwhole : 4 * magnitude.mantissa + 2 ≤ 2 ^ 55 := by omega
  calc x ≤ ((4 * magnitude.mantissa + 2 : ℕ) : ℚ) * 2 ^ (magnitude.exponent - 2) :=
        hcaptures.le_high
    _ ≤ (2 ^ 55 : ℕ) * 2 ^ (969 : ℤ) :=
      mul_le_mul (Nat.cast_le.mpr hwhole) (zpow_le_zpow_right₀ one_le_two (by omega))
        (by positivity) (by positivity)
    _ = 2 ^ 1024 := by
      rw [Nat.cast_pow, Nat.cast_two, show (969 : ℤ) = (969 : ℕ) from rfl, zpow_natCast, ← pow_add]

theorem lt_of_huge {coefficient : Nat} {exponent : Int} (hpos : 0 < coefficient)
    (hhuge : 2048 < exponent) : (2 : ℚ) ^ 1024 < coefficient * 10 ^ exponent := by
  have hcoefficient : (1 : ℚ) ≤ coefficient := Nat.one_le_cast.mpr hpos
  calc (2 : ℚ) ^ 1024 < 10 ^ 1024 := pow_lt_pow_left₀ (by norm_num) two_pos.le (by decide)
    _ = 10 ^ (1024 : ℤ) := (zpow_natCast 10 1024).symm
    _ ≤ 10 ^ exponent := zpow_le_zpow_right₀ (by norm_num) (by omega)
    _ ≤ coefficient * 10 ^ exponent := le_mul_of_one_le_left (by positivity) hcoefficient

theorem le_of_tiny {coefficient : Nat} {exponent : Int}
    (htiny : exponent < -(2048 + coefficient.log2)) :
    (coefficient * 10 ^ exponent : ℚ) ≤ 2 ^ (-1075 : ℤ) := by
  obtain ⟨power, rfl⟩ : ∃ power : Nat, exponent = -power := ⟨(-exponent).toNat, by omega⟩
  have hcoefficient : (coefficient : ℚ) ≤ 2 ^ (coefficient.log2 + 1) := by
    exact_mod_cast Nat.lt_log2_self.le
  have hpower : ((10 : ℚ) ^ power)⁻¹ ≤ (2 ^ power)⁻¹ :=
    inv_anti₀ (by positivity) (pow_le_pow_left₀ two_pos.le (by norm_num) _)
  calc (coefficient * 10 ^ (-power : ℤ) : ℚ) = coefficient * (10 ^ power)⁻¹ := by
        rw [zpow_neg, zpow_natCast]
    _ ≤ 2 ^ (coefficient.log2 + 1) * (2 ^ power)⁻¹ :=
      mul_le_mul hcoefficient hpower (by positivity) (by positivity)
    _ = 2 ^ ((coefficient.log2 + 1 : ℕ) + -power : ℤ) := by
      rw [zpow_add₀ two_ne_zero, zpow_natCast, zpow_neg, zpow_natCast]
    _ ≤ 2 ^ (-1075 : ℤ) := zpow_le_zpow_right₀ one_le_two (by omega)

/-! ### Readings -/

/--
A number is what a number `x` that is not negative is read as: the nearest number, of two equally
near the one with an even mantissa, and an infinity if `x` is beyond all of them.
-/
def IsReading (number : Float) (x : ℚ) : Prop :=
  ∃ magnitude : Magnitude, magnitude.Canonical ∧ magnitude.Captures x ∧
    number = pack magnitude false

theorem IsReading.unique {number other : Float} {x : ℚ} (hnumber : IsReading number x)
    (hother : IsReading other x) : number = other := by
  obtain ⟨magnitude, hcanonical, hcaptures, rfl⟩ := hnumber
  obtain ⟨magnitude', hcanonical', hcaptures', rfl⟩ := hother
  rw [hcaptures.unique hcanonical hcanonical' hcaptures']

theorem RoundsTo.isReading {result : UnpackedFloat} {x : ℚ} (hrounds : RoundsTo result x) :
    IsReading (.ofModel (.pack result)) x := by
  obtain ⟨magnitude, hcanonical, hcaptures, rfl⟩ := hrounds
  exact ⟨magnitude, hcanonical, hcaptures, rfl⟩

theorem isReading_infinity {n : Nat} (hlt : (2 : ℚ) ^ 1024 < n) :
    IsReading (.ofModel (.pack (.infinity .positive))) n := by
  have hpos : 0 < n := by
    have hcast : (0 : ℚ) < n := lt_trans (by positivity) hlt
    exact_mod_cast hcast
  obtain ⟨magnitude, hcanonical, hcaptures, -⟩ := ofNat_roundsTo hpos
  have hrange : 971 < magnitude.exponent := not_le.mp fun hle =>
    (value_le_of_captures hcanonical hle hcaptures).not_gt hlt
  exact ⟨magnitude, hcanonical, hcaptures, (hcanonical.pack_of_overflow hrange false).symm⟩

theorem isReading_ofScientific (coefficient : Nat) (exponent : Int) :
    IsReading (.ofModel (.pack (.ofScientific .binary64 coefficient exponent)))
      (coefficient * 10 ^ exponent) := by
  rw [UnpackedFloat.ofScientific]
  split
  · next hzero =>
    subst hzero
    exact (roundsTo_zero (by simp) (by simp)).isReading
  next hzero =>
  have hpos := Nat.pos_of_ne_zero hzero
  split
  · next hhuge =>
    have hhuge : 2048 < exponent := hhuge
    have hbeyond := lt_of_huge hpos hhuge
    obtain ⟨power, rfl⟩ := Int.eq_ofNat_of_zero_le (show 0 ≤ exponent by omega)
    have hwhole : (coefficient * 10 ^ (power : ℤ) : ℚ) = (coefficient * 10 ^ power : ℕ) := by
      rw [zpow_natCast]
      push_cast
      rfl
    rw [hwhole] at hbeyond ⊢
    exact isReading_infinity hbeyond
  split
  · next htiny =>
    have htiny : exponent < -(2048 + (coefficient.log2 : ℤ)) := htiny
    have hle := le_of_tiny htiny
    refine (roundsTo_zero ?_ hle).isReading
    positivity
  split
  · next hwhole =>
    obtain ⟨power, rfl⟩ := Int.eq_ofNat_of_zero_le hwhole
    have hten : 0 < 10 ^ power := Nat.pow_pos (by decide)
    have hshifted : 0 < coefficient <<< 53 := by
      rw [Nat.shiftLeft_eq]
      omega
    have hwide : 2 ^ 52 ≤ coefficient <<< 53 * 10 ^ power := by
      rw [Nat.shiftLeft_eq]
      calc 2 ^ 52 ≤ coefficient * 2 ^ 53 := by omega
        _ ≤ coefficient * 2 ^ 53 * 10 ^ power := Nat.le_mul_of_pos_right _ hten
    have hvalue : (coefficient * 10 ^ (power : ℤ) : ℚ) =
        (coefficient <<< 53 : ℕ) * 2 ^ (-53 : ℤ) * ((10 ^ power : ℕ) * 2 ^ (0 : ℤ)) := by
      rw [Nat.shiftLeft_eq, zpow_zero, zpow_natCast, zpow_neg]
      push_cast
      rw [mul_assoc (coefficient : ℚ), mul_inv_cancel₀ (by norm_num), mul_one, mul_one]
    rw [hvalue]
    exact (mul_roundsTo hshifted hten (.inl hwide)).isReading
  · next hfraction =>
    obtain ⟨power, rfl⟩ : ∃ power : Nat, exponent = -power := ⟨(-exponent).toNat, by omega⟩
    have hvalue : (coefficient * 10 ^ (-power : ℤ) : ℚ) =
        coefficient * 2 ^ (0 : ℤ) / ((10 ^ (-(-power : ℤ)).toNat : ℕ) * 2 ^ (0 : ℤ)) := by
      rw [neg_neg, Int.toNat_natCast, zpow_neg, zpow_natCast, zpow_zero, mul_one, mul_one,
        div_eq_mul_inv]
      push_cast
      rfl
    rw [hvalue]
    exact (div_roundsTo hpos (Nat.pow_pos (by decide))).isReading

/-! ### Short numerals -/

/-- Whether bits spell a number as an operand whose value is a natural number. -/
def spellsNat (bits n : Nat) : Bool :=
  match Content.ofBits bits with
  | .finite false ⟨mantissa, exponent⟩ =>
    2 ^ 52 ≤ mantissa && mantissa * 2 ^ exponent.toNat == n * 2 ^ (-exponent).toNat
  | _ => false

theorem holds_ofBits {bits : UInt64} {n : Nat} (hspells : spellsNat bits.toNat n = true) :
    Holds (.ofBits bits) n := by
  rw [spellsNat] at hspells
  split at hspells
  · next mantissa exponent hcontent =>
    rw [Bool.and_eq_true, decide_eq_true_eq, beq_iff_eq] at hspells
    obtain ⟨hfull, hscaled⟩ := hspells
    obtain ⟨hcanonical, hrange⟩ := Content.canonical_of_ofBits hcontent
    have hpack : Float.ofBits bits = pack ⟨mantissa, exponent⟩ false := by
      show Float.ofModel (.pack (.unpack .binary64 bits.toBitVec)) = _
      rw [unpack_eq, show bits.toBitVec.toNat = bits.toNat from rfl, hcontent]
      rfl
    have hvalue : Magnitude.value ⟨mantissa, exponent⟩ = n := by
      have hcast : (mantissa : ℚ) * 2 ^ exponent.toNat = n * 2 ^ (-exponent).toNat := by
        exact_mod_cast hscaled
      rw [Magnitude.value, zpow_eq_div two_ne_zero, ← mul_div_assoc, hcast,
        mul_div_cancel_right₀ _ (by positivity)]
    rw [hpack, ← hvalue]
    exact holds_pack hcanonical hrange hfull
  · cases hspells

theorem holds_powerOfTen {power : Nat} (hlt : power < Float.exactlyRepresentablePowersOfTen.size) :
    Holds Float.exactlyRepresentablePowersOfTen[power] (10 ^ power : ℕ) := by
  have hsize : Float.exactlyRepresentablePowersOfTen.size = 23 := rfl
  rw [hsize] at hlt
  interval_cases power
  all_goals exact holds_ofBits (by decide)

theorem unpack_toFloat_zero : (0 : Nat).toUInt64.toFloat.toModel.unpack = .zero .positive := by
  have hcanonical : (⟨0, -1074⟩ : Magnitude).Canonical := Magnitude.canonical_least (by decide)
  have hpack : (0 : Nat).toUInt64.toFloat = pack ⟨0, -1074⟩ false := rfl
  rw [hpack, unpack_toModel, hcanonical.ofFloat_pack (by decide)]
  rfl

theorem mul_powerOfTen_roundsTo {coefficient power : Nat} (hlt : coefficient < 2 ^ 53)
    (hsize : power < Float.exactlyRepresentablePowersOfTen.size) :
    RoundsTo (.mul .binary64 coefficient.toUInt64.toFloat.toModel.unpack
      (Float.exactlyRepresentablePowersOfTen[power]).toModel.unpack)
      (coefficient * (10 ^ power : ℕ)) := by
  have hten := holds_powerOfTen hsize
  obtain rfl | hpos := Nat.eq_zero_or_pos coefficient
  · obtain ⟨mantissa, exponent, hpos, -, -, hunpack⟩ := hten
    rw [unpack_toFloat_zero, hunpack, Nat.cast_zero, zero_mul]
    exact roundsTo_zero le_rfl (by positivity)
  · exact (holds_toFloat hpos hlt).mul hten

theorem div_powerOfTen_roundsTo {coefficient power : Nat} (hlt : coefficient < 2 ^ 53)
    (hsize : power < Float.exactlyRepresentablePowersOfTen.size) :
    RoundsTo (.div .binary64 coefficient.toUInt64.toFloat.toModel.unpack
      (Float.exactlyRepresentablePowersOfTen[power]).toModel.unpack)
      (coefficient / (10 ^ power : ℕ)) := by
  have hten := holds_powerOfTen hsize
  obtain rfl | hpos := Nat.eq_zero_or_pos coefficient
  · obtain ⟨mantissa, exponent, hpos, -, -, hunpack⟩ := hten
    rw [unpack_toFloat_zero, hunpack, Nat.cast_zero, zero_div]
    exact roundsTo_zero le_rfl (by positivity)
  · exact (holds_toFloat hpos hlt).div hten

/-- A numeral is read with correct rounding. -/
theorem Numeral.isReading_toFloat (numeral : Numeral) :
    IsReading numeral.toFloat numeral.value := by
  obtain ⟨coefficient, exponent⟩ := numeral
  rw [value, toFloat, Float.ofScientific]
  simp only
  split
  · next hfast =>
    obtain ⟨hlt, hle⟩ := hfast
    have hsize : exponent.natAbs < Float.exactlyRepresentablePowersOfTen.size := by
      exact Nat.lt_succ_of_le hle
    by_cases hnegative : exponent < 0
    · have hvalue : (coefficient * 10 ^ exponent : ℚ) =
          coefficient / (10 ^ exponent.natAbs : ℕ) := by
        rw [show exponent = -(exponent.natAbs : ℤ) by omega, zpow_neg, zpow_natCast,
          div_eq_mul_inv]
        push_cast
        rw [Int.natAbs_neg, Int.natAbs_abs]
      rw [hvalue]
      simp only [hnegative, decide_true, if_true]
      exact (div_powerOfTen_roundsTo hlt hsize).isReading
    · have hvalue : (coefficient * 10 ^ exponent : ℚ) =
          coefficient * (10 ^ exponent.natAbs : ℕ) := by
        rw [show exponent = (exponent.natAbs : ℤ) by omega, zpow_natCast, Int.natAbs_natCast]
        push_cast
        rfl
      rw [hvalue]
      simp only [hnegative, decide_false]
      exact (mul_powerOfTen_roundsTo hlt hsize).isReading
  · next hslow =>
    have hsigned : (if decide (exponent < 0) = true then Int.negOfNat exponent.natAbs
        else Int.ofNat exponent.natAbs) = exponent := by
      rw [Int.negOfNat_eq, Int.ofNat_eq_natCast]
      by_cases hnegative : exponent < 0
      · rw [if_pos (decide_eq_true hnegative)]
        omega
      · rw [if_neg (by simpa using hnegative)]
        omega
    simp only [hsigned]
    exact isReading_ofScientific coefficient exponent

theorem isReading_whole (n : Nat) : IsReading (Numeral.toFloat ⟨n, 0⟩) n := by
  have hreading := Numeral.isReading_toFloat ⟨n, 0⟩
  rwa [Numeral.value, zpow_zero, mul_one] at hreading

theorem isReading_decimal (n places : Nat) :
    IsReading (Numeral.toFloat ⟨n, -places⟩) (n / 10 ^ places) := by
  have hreading := Numeral.isReading_toFloat ⟨n, -places⟩
  rwa [Numeral.value, zpow_neg, zpow_natCast, ← div_eq_mul_inv] at hreading

end Waveform.Decimal
