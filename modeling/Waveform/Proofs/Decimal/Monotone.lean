import Waveform.Proofs.Decimal.Identities
import Waveform.Proofs.Decimal.Order

/-!
# Rounding keeps the order

The intervals of numbers that canonical magnitudes capture lie in the order of the magnitudes, so
of two exact numbers the lesser rounds to the lesser number. With signs, and with the results that
overflow to an infinity, this orders what operations give by their exact results. A result also
lies within half a unit in the last place of the exact one. Main statements: `IsRounding.rank_le`,
`IsRounding.abs_rank_sub_le` and `isRounding_rank`.
-/

namespace Waveform.Decimal

open Float.Model Float.Model.UnpackedFloat

/-! ### Captured numbers -/

namespace Magnitude

variable {magnitude other : Magnitude} {x y z : ℚ}

theorem Captures.nonneg (hcaptures : magnitude.Captures x) : 0 ≤ x :=
  le_trans (by positivity) hcaptures.low_le

theorem Captures.between (hx : magnitude.Captures x) (hz : magnitude.Captures z) (hxy : x ≤ y)
    (hyz : y ≤ z) : magnitude.Captures y where
  low_le := hx.low_le.trans hxy
  le_high := hyz.trans hz.le_high
  even_of_eq_low := fun hlow =>
    hx.even_of_eq_low (le_antisymm (hxy.trans_eq hlow) hx.low_le)
  even_of_eq_high := fun hhigh =>
    hz.even_of_eq_high (le_antisymm hz.le_high (hhigh.symm.le.trans hyz))

/-- Of two numbers the lesser rounds to the lesser magnitude. -/
theorem Captures.value_le (hcanonical : magnitude.Canonical) (hcanonical' : other.Canonical)
    (hx : magnitude.Captures x) (hy : other.Captures y) (hle : x ≤ y) :
    magnitude.value ≤ other.value := by
  by_contra hlt
  rw [not_le] at hlt
  have hsame : magnitude = other := by
    obtain hbelow | habove := le_total x other.value
    · have hboth := hx.between magnitude.captures_value hbelow hlt.le
      exact hboth.unique hcanonical hcanonical' other.captures_value
    · have hboth := other.captures_value.between hy habove hle
      exact hx.unique hcanonical hcanonical' hboth
  exact hlt.ne' (congrArg value hsame)

theorem Captures.exponent_le (hcanonical : magnitude.Canonical) (hcaptures : magnitude.Captures x)
    (hle : x ≤ overflow / 2) : magnitude.exponent ≤ 971 := by
  have hbound : (⟨2 ^ 52, 971⟩ : Magnitude).Canonical := ⟨by decide, by decide, .inl (by decide)⟩
  have hhalf : (⟨2 ^ 52, 971⟩ : Magnitude).value = overflow / 2 := by
    show ((2 ^ 52 : ℕ) : ℚ) * 2 ^ (971 : ℤ) = _
    have hoverflow : overflow = 2 ^ 52 * 2 ^ 971 * 2 := by rw [← pow_add, ← pow_succ, overflow]
    rw [hoverflow, mul_div_cancel_right₀ _ two_ne_zero, Nat.cast_pow, Nat.cast_two, zpow_ofNat]
  have hself := Magnitude.captures_value ⟨2 ^ 52, 971⟩
  have hvalue := hcaptures.value_le hcanonical hbound hself (hle.trans_eq hhalf.symm)
  rw [hhalf] at hvalue
  exact hcanonical.value_lt_overflow_iff.mp (hvalue.trans_lt (half_lt_self overflow_pos))

theorem Captures.value_eq_zero (hcanonical : magnitude.Canonical)
    (hcaptures : magnitude.Captures 0) : magnitude.value = 0 := by
  have hzero : (⟨0, -1074⟩ : Magnitude).Captures 0 := value_zero (-1074) ▸ captures_value _
  rw [hcaptures.unique hcanonical (canonical_least (by decide)) hzero, value_zero]

/-- A magnitude is close to what rounds to it, in proportion unless it is among the least. -/
theorem Captures.abs_sub_le (hcanonical : magnitude.Canonical) (hcaptures : magnitude.Captures x) :
    |magnitude.value - x| ≤ 2 ^ (-53 : ℤ) * magnitude.value + 2 ^ (-1075 : ℤ) := by
  have hquarters := magnitude.value_eq_quarters
  have hbelow := magnitude.quartersBelow_le
  have hstep : (0 : ℚ) < 2 ^ (magnitude.exponent - 2) := by positivity
  have hhalf : |magnitude.value - x| ≤ 2 * 2 ^ (magnitude.exponent - 2) := by
    have hlow : ((4 * magnitude.mantissa : ℚ) - 2) * 2 ^ (magnitude.exponent - 2) ≤ x := by
      refine le_trans (mul_le_mul_of_nonneg_right ?_ hstep.le) hcaptures.low_le
      have hcast : 4 * magnitude.mantissa ≤
          4 * magnitude.mantissa - magnitude.quartersBelow + 2 := by omega
      rw [sub_le_iff_le_add]
      exact_mod_cast hcast
    have hhigh := hcaptures.le_high
    push_cast at hhigh
    rw [abs_le]
    constructor <;> linarith
  refine hhalf.trans ?_
  have hnonneg := magnitude.value_nonneg
  rw [← zpow_one_add₀ two_ne_zero]
  obtain hexponent | hexponent := hcanonical.le_exponent.lt_or_eq
  · have hfull := hcanonical.pow_le_value hexponent
    have hlast : (2 : ℚ) ^ (1 + (magnitude.exponent - 2)) ≤ 2 ^ (-53 : ℤ) * magnitude.value := by
      calc (2 : ℚ) ^ (1 + (magnitude.exponent - 2))
          = 2 ^ (-53 : ℤ) * 2 ^ (52 + magnitude.exponent) := by
            rw [← zpow_add₀ two_ne_zero]
            congr 1
            omega
        _ ≤ 2 ^ (-53 : ℤ) * magnitude.value := mul_le_mul_of_nonneg_left hfull (by positivity)
    have hpositive : (0 : ℚ) < 2 ^ (-1075 : ℤ) := by positivity
    linarith
  · have hleast : 1 + (magnitude.exponent - 2) = -1075 := by
      rw [← hexponent]
      rfl
    rw [hleast]
    have hproduct : 0 ≤ 2 ^ (-53 : ℤ) * magnitude.value := by positivity
    linarith

end Magnitude

/-! ### Packed magnitudes -/

section Packed

variable {magnitude : Magnitude} (negative : Bool)

theorem Magnitude.Canonical.ofFloat_pack_infinite (hcanonical : magnitude.Canonical)
    (hrange : 971 < magnitude.exponent) :
    Content.ofFloat (pack magnitude negative) = .infinite negative := by
  rw [hcanonical.pack_of_overflow hrange negative]
  exact ofBits_packedInfinity negative

theorem Magnitude.Canonical.not_isNaN_pack (hcanonical : magnitude.Canonical) :
    ¬(pack magnitude negative).isNaN := by
  rw [isNaN_iff]
  obtain hrange | hrange := le_or_gt magnitude.exponent 971
  · rw [hcanonical.ofFloat_pack hrange]
    exact Content.noConfusion
  · rw [hcanonical.ofFloat_pack_infinite negative hrange]
    exact Content.noConfusion

theorem Magnitude.Canonical.rank_pack (hcanonical : magnitude.Canonical) :
    rank (pack magnitude negative) = signed negative (min magnitude.value overflow) := by
  rw [rank]
  obtain hrange | hrange := le_or_gt magnitude.exponent 971
  · rw [hcanonical.ofFloat_pack hrange,
      min_eq_left (hcanonical.value_lt_overflow_iff.mpr hrange).le]
    rfl
  · have hle := not_lt.mp (mt hcanonical.value_lt_overflow_iff.mp hrange.not_ge)
    rw [hcanonical.ofFloat_pack_infinite negative hrange, min_eq_right hle]
    rfl

end Packed

/-! ### Rounded results -/

/-- An unpacked result is that of rounding a number. -/
def Rounds (result : UnpackedFloat) (x : ℚ) : Prop :=
  ∃ (negative : Bool) (magnitude : Magnitude), magnitude.Canonical ∧
    magnitude.Captures (signed negative x) ∧ result = magnitude.unpacked negative

/-- A number is what a number `x` is rounded to. -/
def IsRounding (number : Float) (x : ℚ) : Prop :=
  ∃ (negative : Bool) (magnitude : Magnitude), magnitude.Canonical ∧
    magnitude.Captures (signed negative x) ∧ number = pack magnitude negative

theorem Rounds.isRounding_pack {result : UnpackedFloat} {x : ℚ} (hrounds : Rounds result x) :
    IsRounding (.ofModel (.pack result)) x := by
  obtain ⟨negative, magnitude, hcanonical, hcaptures, rfl⟩ := hrounds
  exact ⟨negative, magnitude, hcanonical, hcaptures, rfl⟩

namespace IsRounding

variable {number other : Float} {x y : ℚ}

theorem not_isNaN (hnumber : IsRounding number x) : ¬number.isNaN := by
  obtain ⟨negative, magnitude, hcanonical, -, rfl⟩ := hnumber
  exact hcanonical.not_isNaN_pack negative

/-- Of two numbers the lesser rounds to the lesser. -/
theorem rank_le (hnumber : IsRounding number x) (hother : IsRounding other y) (hle : x ≤ y) :
    rank number ≤ rank other := by
  obtain ⟨negative, magnitude, hcanonical, hcaptures, rfl⟩ := hnumber
  obtain ⟨negative', magnitude', hcanonical', hcaptures', rfl⟩ := hother
  rw [hcanonical.rank_pack, hcanonical'.rank_pack]
  have hvalue : 0 ≤ min magnitude.value overflow := le_min magnitude.value_nonneg overflow_pos.le
  have hvalue' : 0 ≤ min magnitude'.value overflow :=
    le_min magnitude'.value_nonneg overflow_pos.le
  have hnonneg := hcaptures.nonneg
  have hnonneg' := hcaptures'.nonneg
  cases negative <;> cases negative' <;> simp only [signed_false, signed_true] at *
  · have hmagnitude := hcaptures.value_le hcanonical hcanonical' hcaptures' hle
    exact min_le_min_right overflow hmagnitude
  · obtain rfl : x = 0 := by linarith
    obtain rfl : y = 0 := by linarith
    rw [hcaptures.value_eq_zero hcanonical, hcaptures'.value_eq_zero hcanonical',
      min_eq_left overflow_pos.le, neg_zero]
  · exact (neg_nonpos.mpr hvalue).trans hvalue'
  · have hmagnitude := hcaptures'.value_le hcanonical' hcanonical hcaptures (neg_le_neg hle)
    exact neg_le_neg (min_le_min_right overflow hmagnitude)

theorem rank_eq_zero (hnumber : IsRounding number 0) : rank number = 0 := by
  obtain ⟨negative, magnitude, hcanonical, hcaptures, rfl⟩ := hnumber
  rw [signed_zero] at hcaptures
  rw [hcanonical.rank_pack, hcaptures.value_eq_zero hcanonical, min_eq_left overflow_pos.le,
    signed_zero]

theorem le (hnumber : IsRounding number x) (hother : IsRounding other y) (hle : x ≤ y) :
    number ≤ other :=
  le_iff.mpr ⟨hnumber.not_isNaN, hother.not_isNaN, hnumber.rank_le hother hle⟩

theorem isFinite_of_abs_le (hnumber : IsRounding number x) (hle : |x| ≤ overflow / 2) :
    number.isFinite := by
  obtain ⟨negative, magnitude, hcanonical, hcaptures, rfl⟩ := hnumber
  have hsigned : signed negative x ≤ overflow / 2 := by
    cases negative
    · exact (le_abs_self x).trans hle
    · exact (neg_le_abs x).trans hle
  have hrange := hcaptures.exponent_le hcanonical hsigned
  exact isFinite_iff.mpr ⟨negative, magnitude, hcanonical.ofFloat_pack hrange negative⟩

/-- A finite result is close to the exact one. -/
theorem abs_rank_sub_le (hnumber : IsRounding number x) (hfinite : number.isFinite) :
    |rank number - x| ≤ 2 ^ (-53 : ℤ) * |rank number| + 2 ^ (-1075 : ℤ) := by
  rw [isFinite_iff_rank hnumber.not_isNaN] at hfinite
  obtain ⟨negative, magnitude, hcanonical, hcaptures, rfl⟩ := hnumber
  have hnonneg : 0 ≤ min magnitude.value overflow := le_min magnitude.value_nonneg overflow_pos.le
  rw [hcanonical.rank_pack] at hfinite ⊢
  rw [abs_signed negative hnonneg] at hfinite ⊢
  have hmin : min magnitude.value overflow = magnitude.value :=
    min_eq_left (le_of_lt (min_lt_iff.mp hfinite |>.resolve_right (lt_irrefl _)))
  rw [hmin]
  have hclose := hcaptures.abs_sub_le hcanonical
  cases negative
  · exact hclose
  · rw [signed_true] at hclose ⊢
    rwa [← neg_add', abs_neg, ← sub_neg_eq_add]

/-- An exact result that is a number is not rounded. -/
theorem rank_eq (hnumber : IsRounding number x) (hother : IsRounding other x) :
    rank number = rank other :=
  le_antisymm (hnumber.rank_le hother le_rfl) (hother.rank_le hnumber le_rfl)

end IsRounding

theorem eq_pack_of_content {number : Float} {negative : Bool} {magnitude : Magnitude}
    (hcontent : Content.ofFloat number = .finite negative magnitude) :
    number = pack magnitude negative := by
  obtain ⟨hcanonical, hrange⟩ := Content.canonical_of_ofBits hcontent
  exact Content.ofFloat_injective hcontent (hcanonical.ofFloat_pack hrange negative)

theorem isRounding_rank {number : Float} (hfinite : number.isFinite) :
    IsRounding number (rank number) := by
  obtain ⟨negative, magnitude, hcontent⟩ := isFinite_iff.mp hfinite
  obtain ⟨hcanonical, -⟩ := Content.canonical_of_ofBits hcontent
  refine ⟨negative, magnitude, hcanonical, ?_, eq_pack_of_content hcontent⟩
  rw [rank_eq_of_content hcontent, signed_signed]
  exact magnitude.captures_value

theorem IsRounding.rank_nonneg {number : Float} {x : ℚ} (hnumber : IsRounding number x)
    (hnonneg : 0 ≤ x) : 0 ≤ rank number := by
  have hzero := isRounding_rank (show (0 : Float).isFinite by decide)
  rw [rank_zero] at hzero
  exact rank_zero.symm.le.trans (hzero.rank_le hnumber hnonneg)

end Waveform.Decimal
