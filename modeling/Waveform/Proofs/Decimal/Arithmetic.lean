import Waveform.Proofs.Decimal.Rounding

/-!
# Products and quotients are rounded correctly

The product and the quotient of two positive numbers, and a mantissa that is widened first, as that
of a natural number, are the canonical magnitudes that capture the exact results. Products of full
mantissas and quotients have bits enough to be rounded: what is kept never starts above the place
that rounding ends at.
-/

namespace Waveform.Decimal

open Float.Model Float.Model.UnpackedFloat

/-! ### Rounded results -/

/-- An unpacked result is that of rounding a number that is not negative. -/
def RoundsTo (result : UnpackedFloat) (x : ℚ) : Prop :=
  ∃ magnitude : Magnitude, magnitude.Canonical ∧ magnitude.Captures x ∧
    result = magnitude.unpacked false

theorem RoundsTo.eq {result : UnpackedFloat} {x : ℚ} {magnitude : Magnitude}
    (hrounds : RoundsTo result x) (hcanonical : magnitude.Canonical)
    (hcaptures : magnitude.Captures x) : result = magnitude.unpacked false := by
  obtain ⟨other, hother, hcaptured, hresult⟩ := hrounds
  rw [hresult, hcaptured.unique hother hcanonical hcaptures]

theorem roundsTo_zero {x : ℚ} (hnonneg : 0 ≤ x) (hle : x ≤ 2 ^ (-1075 : Int)) :
    RoundsTo (.zero .positive) x := by
  refine ⟨⟨0, -1074⟩, Magnitude.canonical_least (by decide), ?_, rfl⟩
  have hhigh : x ≤ ((4 * 0 + 2 : ℕ) : ℚ) * 2 ^ (-1074 - 2 : Int) := by
    rw [show (4 * 0 + 2 : ℕ) = 2 from rfl, Nat.cast_two, ← zpow_one_add₀ two_ne_zero]
    exact hle
  exact ⟨by simpa using hnonneg, hhigh, fun _ => rfl, fun _ => rfl⟩

/-! ### Products and quotients -/

theorem mul_roundsTo {mantissa mantissa' : Nat} {exponent exponent' : Int} (hpos : 0 < mantissa)
    (hpos' : 0 < mantissa')
    (hwide : 2 ^ 52 ≤ mantissa * mantissa' ∨ exponent + exponent' ≤ -1074) :
    RoundsTo (.mul .binary64 (.finite .positive mantissa exponent hpos)
      (.finite .positive mantissa' exponent' hpos'))
      (mantissa * 2 ^ exponent * (mantissa' * 2 ^ exponent')) := by
  refine roundWithAccuracy_captures (.exact ?_) ?_
  · rw [zpow_add₀ two_ne_zero]
    push_cast
    field_simp
  · have hlog : 2 ^ 52 ≤ mantissa * mantissa' → 52 ≤ (mantissa * mantissa').log2 :=
      (Nat.le_log2 (Nat.mul_pos hpos hpos').ne').mpr
    rw [targetExponent_eq]
    omega

theorem approximates_div (numerator : Nat) {denominator : Nat} (hpos : 0 < denominator) :
    Approximates (numerator / denominator) ((numerator : ℚ) / denominator)
      (accuracyOfFraction (numerator % denominator) denominator) := by
  have hdenominator : (0 : ℚ) < denominator := Nat.cast_pos.mpr hpos
  have hlt := Nat.mod_lt numerator hpos
  rw [natCast_div_eq numerator hpos]
  generalize numerator / denominator = quotient
  generalize numerator % denominator = remainder at hlt ⊢
  have hbelow : (remainder : ℚ) / denominator < 1 :=
    (div_lt_one hdenominator).mpr (Nat.cast_lt.mpr hlt)
  rw [accuracyOfFraction]
  split
  · next hexact =>
    rw [hexact]
    exact .exact (by simp)
  · next hrest =>
    have hpositive : (0 : ℚ) < remainder / denominator :=
      div_pos (Nat.cast_pos.mpr (Nat.pos_of_ne_zero hrest)) hdenominator
    rcases Nat.lt_trichotomy (2 * remainder) denominator with h | h | h
    · have hhalf := (div_lt_half_iff hpos).mpr h
      rw [Nat.compare_eq_lt.mpr h]
      exact .below (by linarith) (by linarith)
    · have hle := not_lt.mp fun hlow => h.not_lt ((div_lt_half_iff hpos).mp hlow)
      have hge := not_lt.mp fun hhigh => h.not_gt ((half_lt_div_iff hpos).mp hhigh)
      rw [Nat.compare_eq_eq.mpr h]
      exact .half (by linarith)
    · have hhalf := (half_lt_div_iff hpos).mpr h
      rw [Nat.compare_eq_gt.mpr h]
      exact .above (by linarith) (by linarith)

theorem le_log2_div {mantissa mantissa' amount : Nat} (hpos : 0 < mantissa) (hpos' : 0 < mantissa')
    (hwide : mantissa'.log2 + 53 ≤ mantissa.log2 + amount) :
    52 ≤ (mantissa * 2 ^ amount / mantissa').log2 := by
  have hfull : 2 ^ 52 ≤ mantissa * 2 ^ amount / mantissa' := by
    rw [Nat.le_div_iff_mul_le hpos']
    calc 2 ^ 52 * mantissa' ≤ 2 ^ 52 * 2 ^ (mantissa'.log2 + 1) :=
          Nat.mul_le_mul_left _ Nat.lt_log2_self.le
      _ = 2 ^ (mantissa'.log2 + 53) := by rw [← pow_add]; congr 1; omega
      _ ≤ 2 ^ (mantissa.log2 + amount) := Nat.pow_le_pow_right two_pos hwide
      _ = 2 ^ mantissa.log2 * 2 ^ amount := pow_add 2 _ _
      _ ≤ mantissa * 2 ^ amount := Nat.mul_le_mul_right _ (Nat.log2_self_le hpos.ne')
  exact (Nat.le_log2 (by omega)).mpr hfull

theorem div_roundsTo {mantissa mantissa' : Nat} {exponent exponent' : Int} (hpos : 0 < mantissa)
    (hpos' : 0 < mantissa') :
    RoundsTo (.div .binary64 (.finite .positive mantissa exponent hpos)
      (.finite .positive mantissa' exponent' hpos'))
      (mantissa * 2 ^ exponent / (mantissa' * 2 ^ exponent')) := by
  obtain ⟨total, htotal⟩ : ∃ total, total =
      totalExponent mantissa exponent - totalExponent mantissa' exponent' := ⟨_, rfl⟩
  obtain ⟨target, htarget⟩ : ∃ target, target =
      min (exponent - exponent') (Format.binary64.targetExponent total) := ⟨_, rfl⟩
  obtain ⟨amount, hamount⟩ : ∃ amount : Nat, exponent - exponent' = target + amount :=
    ⟨(exponent - exponent' - target).toNat, by omega⟩
  have hcore : divCore .binary64 mantissa exponent mantissa' exponent' =
      (mantissa * 2 ^ amount / mantissa', target,
        accuracyOfFraction (mantissa * 2 ^ amount % mantissa') mantissa') := by
    rw [divCore]
    simp only [← htotal, ← htarget]
    rw [show exponent - exponent' - target = (amount : Int) by omega, Int.toNat_natCast,
      Nat.shiftLeft_eq]
  show RoundsTo (roundWithAccuracy .binary64 .positive
    (divCore .binary64 mantissa exponent mantissa' exponent').1
    (divCore .binary64 mantissa exponent mantissa' exponent').2.1
    (divCore .binary64 mantissa exponent mantissa' exponent').2.2) _
  rw [hcore]
  refine roundWithAccuracy_captures ?_ ?_
  · have hscaled : (mantissa * 2 ^ exponent / (mantissa' * 2 ^ exponent') / 2 ^ target : ℚ) =
        ((mantissa * 2 ^ amount : ℕ) : ℚ) / mantissa' := by
      have hne : (mantissa' : ℚ) ≠ 0 := Nat.cast_ne_zero.mpr hpos'.ne'
      rw [show exponent = exponent' + target + amount by omega, zpow_add₀ two_ne_zero,
        zpow_add₀ two_ne_zero, zpow_natCast]
      push_cast
      field_simp
    rw [hscaled]
    exact approximates_div _ hpos'
  · rw [targetExponent_eq]
    show target ≤ max ((mantissa * 2 ^ amount / mantissa').log2 + target - 52) (-1074)
    by_cases hleast : target ≤ -1074
    · omega
    · have hwide : mantissa'.log2 + 53 ≤ mantissa.log2 + amount := by
        have htotal' : Format.binary64.targetExponent total = max (total - 53) (-1074) := rfl
        unfold totalExponent at htotal
        omega
      have hlog := le_log2_div hpos hpos' hwide
      omega

/-! ### Operands -/

/-- A number as an operand of arithmetic, its mantissa full. -/
def Holds (number : Float) (x : ℚ) : Prop :=
  ∃ (mantissa : Nat) (exponent : Int) (hpos : 0 < mantissa), 2 ^ 52 ≤ mantissa ∧
    mantissa * 2 ^ exponent = x ∧
    number.toModel.unpack = .finite .positive mantissa exponent hpos

theorem holds_pack {magnitude : Magnitude} (hcanonical : magnitude.Canonical)
    (hrange : magnitude.exponent ≤ 971) (hfull : 2 ^ 52 ≤ magnitude.mantissa) :
    Holds (pack magnitude false) magnitude.value := by
  have hpos : 0 < magnitude.mantissa := by omega
  refine ⟨magnitude.mantissa, magnitude.exponent, hpos, hfull, rfl, ?_⟩
  rw [unpack_toModel, hcanonical.ofFloat_pack hrange]
  exact Magnitude.unpacked_of_pos false hpos

/-- The magnitude of a natural number that fits in a mantissa. -/
def Magnitude.ofNat (n : Nat) : Magnitude := ⟨n * 2 ^ (52 - n.log2), n.log2 - 52⟩

theorem ofNat_log2_le {n : Nat} (hpos : 0 < n) (hlt : n < 2 ^ 53) : n.log2 ≤ 52 := by
  have := (Nat.log2_lt hpos.ne').mpr hlt
  omega

theorem Magnitude.le_ofNat {n : Nat} (hpos : 0 < n) (hlt : n < 2 ^ 53) :
    2 ^ 52 ≤ (ofNat n).mantissa := by
  have hlog := ofNat_log2_le hpos hlt
  calc 2 ^ 52 = 2 ^ n.log2 * 2 ^ (52 - n.log2) := by rw [← pow_add]; congr 1; omega
    _ ≤ n * 2 ^ (52 - n.log2) := Nat.mul_le_mul_right _ (Nat.log2_self_le hpos.ne')

theorem Magnitude.canonical_ofNat {n : Nat} (hpos : 0 < n) (hlt : n < 2 ^ 53) :
    (ofNat n).Canonical := by
  have hlog := ofNat_log2_le hpos hlt
  refine ⟨?_, show -1074 ≤ (n.log2 : ℤ) - 52 by omega, .inl (le_ofNat hpos hlt)⟩
  calc n * 2 ^ (52 - n.log2) < 2 ^ (n.log2 + 1) * 2 ^ (52 - n.log2) :=
        Nat.mul_lt_mul_of_pos_right Nat.lt_log2_self (Nat.two_pow_pos _)
    _ = 2 ^ 53 := by rw [← pow_add]; congr 1; omega

theorem Magnitude.value_ofNat {n : Nat} (hpos : 0 < n) (hlt : n < 2 ^ 53) :
    (ofNat n).value = n := by
  have hlog := ofNat_log2_le hpos hlt
  rw [value, ofNat]
  rw [show (n.log2 : ℤ) - 52 = -((52 - n.log2 : ℕ) : ℤ) by omega, zpow_neg, zpow_natCast]
  push_cast
  rw [mul_assoc, mul_inv_cancel₀ (by positivity), mul_one]

theorem log2_mul_two_pow {mantissa : Nat} (hpos : 0 < mantissa) (amount : Nat) :
    (mantissa * 2 ^ amount).log2 = mantissa.log2 + amount := by
  have hne : mantissa * 2 ^ amount ≠ 0 := (Nat.mul_pos hpos (Nat.two_pow_pos _)).ne'
  have hle : mantissa.log2 + amount ≤ (mantissa * 2 ^ amount).log2 := by
    rw [Nat.le_log2 hne, pow_add]
    exact Nat.mul_le_mul_right _ (Nat.log2_self_le hpos.ne')
  have hlt : (mantissa * 2 ^ amount).log2 < mantissa.log2 + 1 + amount := by
    rw [Nat.log2_lt hne, pow_add]
    exact Nat.mul_lt_mul_of_pos_right Nat.lt_log2_self (Nat.two_pow_pos _)
  omega

/-- To round exactly, a mantissa is widened until rounding has bits enough. -/
theorem round_roundsTo {mantissa : Nat} (exponent : Int) (hpos : 0 < mantissa) :
    RoundsTo (UnpackedFloat.round .binary64 .positive mantissa exponent)
      (mantissa * 2 ^ exponent) := by
  rw [UnpackedFloat.round, decreaseExponent]
  simp only
  generalize hamount : (exponent - Format.binary64.targetExponent
    (totalExponent mantissa exponent)).toNat = amount
  rw [targetExponent_eq] at hamount
  refine roundWithAccuracy_captures (.exact ?_) ?_
  · rw [Nat.shiftLeft_eq, zpow_sub₀ two_ne_zero, zpow_natCast]
    push_cast
    field_simp
  · rw [targetExponent_eq, Nat.shiftLeft_eq, log2_mul_two_pow hpos]
    omega

theorem ofNat_roundsTo {n : Nat} (hpos : 0 < n) : RoundsTo (.ofNat .binary64 n) n := by
  have hsign : compare (n : ℤ) 0 = .gt := Int.compare_eq_gt.mpr (Int.natCast_pos.mpr hpos)
  show RoundsTo (normalize .binary64 n 0 .positive) n
  rw [UnpackedFloat.normalize, hsign]
  simpa using round_roundsTo 0 hpos

theorem holds_toFloat {n : Nat} (hpos : 0 < n) (hlt : n < 2 ^ 53) :
    Holds n.toUInt64.toFloat n := by
  have hmod : n.toUInt64.toNat = n := by
    show n % 2 ^ 64 = n
    omega
  have hcaptures : (Magnitude.ofNat n).Captures n := by
    rw [← Magnitude.value_ofNat hpos hlt]
    exact Magnitude.captures_value _
  have hround := (ofNat_roundsTo hpos).eq (Magnitude.canonical_ofNat hpos hlt) hcaptures
  have hpack : n.toUInt64.toFloat = pack (.ofNat n) false := by
    show Float.ofModel (.pack (.ofNat .binary64 n.toUInt64.toNat)) = _
    rw [hmod, hround]
    rfl
  rw [hpack]
  have hexponent : (Magnitude.ofNat n).exponent ≤ 971 := by
    have hlog := ofNat_log2_le hpos hlt
    show (n.log2 : ℤ) - 52 ≤ 971
    omega
  have hholds := holds_pack (Magnitude.canonical_ofNat hpos hlt) hexponent
    (Magnitude.le_ofNat hpos hlt)
  rwa [Magnitude.value_ofNat hpos hlt] at hholds

theorem Holds.mul {number other : Float} {x y : ℚ} (hnumber : Holds number x)
    (hother : Holds other y) :
    RoundsTo (.mul .binary64 number.toModel.unpack other.toModel.unpack) (x * y) := by
  obtain ⟨mantissa, exponent, hpos, hfull, rfl, hunpack⟩ := hnumber
  obtain ⟨mantissa', exponent', hpos', hfull', rfl, hunpack'⟩ := hother
  rw [hunpack, hunpack']
  exact mul_roundsTo hpos hpos' (.inl (hfull.trans (Nat.le_mul_of_pos_right _ hpos')))

theorem Holds.div {number other : Float} {x y : ℚ} (hnumber : Holds number x)
    (hother : Holds other y) :
    RoundsTo (.div .binary64 number.toModel.unpack other.toModel.unpack) (x / y) := by
  obtain ⟨mantissa, exponent, hpos, -, rfl, hunpack⟩ := hnumber
  obtain ⟨mantissa', exponent', hpos', -, rfl, hunpack'⟩ := hother
  rw [hunpack, hunpack']
  exact div_roundsTo hpos hpos'

end Waveform.Decimal
