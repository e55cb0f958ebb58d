import Waveform.Proofs.Decimal.Numeral

/-!
# The shortest numeral of a number reads back

The shortest numeral is taken from the first decimal grid on which a neighbour of the magnitude is
captured by it, and such a numeral reads back because reading is correct. Should no grid have one,
the nearest numeral with seventeen digits is taken. It is captured as well: its distance from the
magnitude is half a unit of its last digit, and that is less than the distance to the halfway
points.
-/

namespace Waveform.Decimal

/-! ### Digits and values -/

theorem Numeral.value_reduced (numeral : Numeral) : numeral.reduced.value = numeral.value := by
  fun_induction reduced numeral with
  | case1 numeral hzero ih =>
      obtain ⟨coefficient, exponent⟩ := numeral
      obtain ⟨-, hdivides⟩ := hzero
      have hdivides : coefficient % 10 = 0 := hdivides
      have hcast : (coefficient : ℚ) = 10 * (coefficient / 10 : ℕ) := by
        exact_mod_cast (by omega : coefficient = 10 * (coefficient / 10))
      rw [ih]
      show ((coefficient / 10 : ℕ) : ℚ) * 10 ^ (exponent + 1) = coefficient * 10 ^ exponent
      rw [zpow_add_one₀ (by norm_num), hcast]
      ring
  | case2 numeral => rfl

theorem lt_pow_digitCount (n : Nat) : n < 10 ^ Magnitude.digitCount n :=
  (Nat.length_toDigits_le_iff (by decide) Nat.length_toDigits_pos).mp le_rfl

theorem pow_digitCount_le {n : Nat} (hpos : 0 < n) :
    10 ^ (Magnitude.digitCount n - 1) ≤ n := by
  by_contra hlt
  rw [Nat.not_le] at hlt
  obtain hone | hmore := Nat.lt_or_ge 1 (Magnitude.digitCount n)
  · have hle : Magnitude.digitCount n ≤ Magnitude.digitCount n - 1 :=
      (Nat.length_toDigits_le_iff (by decide) (by omega)).mpr hlt
    omega
  · rw [show Magnitude.digitCount n - 1 = 0 by omega, pow_zero] at hlt
    omega

/-! ### The leading digit -/

namespace Magnitude

theorem value_eq_ratio (magnitude : Magnitude) (unit : Int) :
    magnitude.value = (magnitude.ratio unit).value * 10 ^ unit := by
  rw [ratio_value, div_mul_cancel₀ _ (by positivity)]

theorem pow_decade_le {magnitude : Magnitude} (hpos : 0 < magnitude.mantissa) :
    (10 : ℚ) ^ magnitude.decade ≤ magnitude.value := by
  unfold decade
  simp only
  split
  · next hatUpper =>
    generalize (digitCount (magnitude.ratio 0).numerator : ℤ) -
      digitCount (magnitude.ratio 0).denominator = upper at *
    rw [value_eq_ratio magnitude upper]
    refine le_mul_of_one_le_left (by positivity) ?_
    rw [Ratio.value, one_le_div (Nat.cast_pos.mpr (ratio_denominator_pos magnitude upper))]
    exact Nat.cast_le.mpr hatUpper
  · have hnumerator : 0 < (magnitude.ratio 0).numerator :=
      Nat.mul_pos (Nat.mul_pos hpos (Nat.pow_pos two_pos)) (Nat.pow_pos (by decide))
    have hdenominator := ratio_denominator_pos magnitude 0
    generalize hratio : magnitude.ratio 0 = ratio at *
    rw [value_eq_ratio magnitude 0, zpow_zero, mul_one, hratio]
    have hdigits : 0 < digitCount ratio.numerator := Nat.length_toDigits_pos
    rw [Ratio.value]
    rw [le_div_iff₀ (Nat.cast_pos.mpr hdenominator)]
    calc (10 : ℚ) ^ ((digitCount ratio.numerator : ℤ) - digitCount ratio.denominator - 1) *
          ratio.denominator
        ≤ 10 ^ ((digitCount ratio.numerator : ℤ) - digitCount ratio.denominator - 1) *
          (10 ^ digitCount ratio.denominator : ℕ) :=
          mul_le_mul_of_nonneg_left (Nat.cast_le.mpr (lt_pow_digitCount _).le) (by positivity)
      _ = (10 ^ (digitCount ratio.numerator - 1) : ℕ) := by
          push_cast
          rw [← zpow_natCast, ← zpow_natCast, ← zpow_add₀ (by norm_num)]
          congr 1
          omega
      _ ≤ ratio.numerator := Nat.cast_le.mpr (pow_digitCount_le hnumerator)

end Magnitude

/-! ### The nearest numeral on a grid -/

/-- A fraction is rounded to the nearest number, a half to the even one of two. -/
theorem Ratio.nearest_round {ratio : Ratio} (hpos : 0 < ratio.denominator) :
    Nearest ratio.round ratio.value := by
  obtain ⟨numerator, denominator⟩ := ratio
  have hpos : 0 < denominator := hpos
  have hbelow : ((numerator % denominator : ℕ) : ℚ) / denominator < 1 :=
    (div_lt_one (Nat.cast_pos.mpr hpos)).mpr (Nat.cast_lt.mpr (Nat.mod_lt numerator hpos))
  have hnonneg : (0 : ℚ) ≤ ((numerator % denominator : ℕ) : ℚ) / denominator := by positivity
  rw [round, value]
  simp only
  rw [natCast_div_eq numerator hpos]
  generalize numerator / denominator = quotient
  split
  · next hless =>
    have hhalf := (div_lt_half_iff hpos).mpr hless
    exact .of_close (by linarith) (by linarith)
  next hless =>
  have hge := not_lt.mp fun hlow => hless ((div_lt_half_iff hpos).mp hlow)
  split
  · next hmore =>
    have hhalf := (half_lt_div_iff hpos).mpr hmore
    refine .of_close ?_ ?_
    · push_cast
      linarith
    · push_cast
      linarith
  next hmore =>
  have hle := not_lt.mp fun hhigh => hmore ((half_lt_div_iff hpos).mp hhigh)
  split
  · next heven => exact ⟨by linarith, by linarith, fun _ => heven, fun _ => heven⟩
  · next hodd =>
    have heven : (quotient + 1) % 2 = 0 := by omega
    refine ⟨?_, ?_, fun _ => heven, fun _ => heven⟩
    · push_cast
      linarith
    · push_cast
      linarith

theorem Ratio.round_close {ratio : Ratio} (hpos : 0 < ratio.denominator) :
    ratio.round - 1 / 2 ≤ ratio.value ∧ ratio.value ≤ ratio.round + 1 / 2 :=
  ⟨(nearest_round hpos).low_le, (nearest_round hpos).le_high⟩

/-! ### The shortest numeral -/

namespace Magnitude

/-- Seventeen digits are enough: they come closer than the nearest halfway point. -/
theorem captures_sufficient {magnitude : Magnitude} (hcanonical : magnitude.Canonical)
    (hpos : 0 < magnitude.mantissa) {finest : Int}
    (hfinest : finest = magnitude.decade - (sufficientDigits - 1)) :
    magnitude.Captures (Numeral.value ⟨(magnitude.ratio finest).round, finest⟩) := by
  have hstep : (0 : ℚ) < 2 ^ (magnitude.exponent - 2) := by positivity
  have hunit : (0 : ℚ) < 10 ^ finest := by positivity
  obtain ⟨hlow, hhigh⟩ := Ratio.round_close (ratio_denominator_pos magnitude finest)
  rw [ratio_value, le_div_iff₀ hunit] at hlow
  rw [ratio_value, div_le_iff₀ hunit] at hhigh
  have hclose : (10 : ℚ) ^ 16 * 10 ^ finest ≤
      4 * magnitude.mantissa * 2 ^ (magnitude.exponent - 2) := by
    calc (10 : ℚ) ^ 16 * 10 ^ finest = 10 ^ magnitude.decade := by
          rw [← zpow_natCast, ← zpow_add₀ (by norm_num)]
          congr 1
          rw [hfinest, sufficientDigits]
          omega
      _ ≤ magnitude.value := pow_decade_le hpos
      _ = _ := value_eq_quarters magnitude
  have hwithin : (10 : ℚ) ^ finest / 2 <
      magnitude.quartersBelow * 2 ^ (magnitude.exponent - 2) := by
    rw [quartersBelow]
    split
    · next hleast =>
      have hmantissa : (magnitude.mantissa : ℚ) = 2 ^ 52 := by
        rw [hleast.1]
        norm_num [leastNormalMantissa]
      rw [hmantissa] at hclose
      push_cast
      linarith
    · have hmantissa : (magnitude.mantissa : ℚ) < 2 ^ 53 := by
        exact_mod_cast hcanonical.mantissa_lt
      have hscaled := mul_lt_mul_of_pos_right hmantissa hstep
      push_cast
      linarith
  have hquarters : (magnitude.quartersBelow : ℚ) ≤ 2 :=
    Nat.cast_le_ofNat.mpr magnitude.quartersBelow_le
  have hbelow := mul_le_mul_of_nonneg_right hquarters hstep.le
  refine captures_of_close hpos ?_ ?_
  · show _ < ((magnitude.ratio finest).round : ℚ) * 10 ^ finest
    linarith
  · show ((magnitude.ratio finest).round : ℚ) * 10 ^ finest < _
    linarith

theorem captures_of_numeralOn? {magnitude : Magnitude} {unit : Int} {numeral : Numeral}
    (hnumeral : magnitude.numeralOn? unit = some numeral) : magnitude.Captures numeral.value := by
  rw [numeralOn?] at hnumeral
  obtain ⟨coefficient, hfound, rfl⟩ := Option.map_eq_some_iff.mp hnumeral
  exact captures_of_readsBack (List.find?_some hfound)

theorem captures_shortest {magnitude : Magnitude} (hcanonical : magnitude.Canonical) :
    magnitude.Captures magnitude.shortest.value := by
  rw [shortest]
  split
  · next hzero =>
    have hvalue : Numeral.value ⟨0, 0⟩ = 0 := by simp [Numeral.value]
    rw [hvalue]
    refine ⟨?_, by positivity, fun _ => by rw [hzero], fun _ => by rw [hzero]⟩
    rw [hzero, Nat.mul_zero, Nat.zero_sub, Nat.cast_zero, zero_mul]
  · next hzero =>
    rw [Numeral.value_reduced]
    cases hfound : (List.range sufficientDigits).findSome? fun step : Nat =>
        magnitude.numeralOn? (magnitude.decade - step) with
    | none => exact captures_sufficient hcanonical (Nat.pos_of_ne_zero hzero) rfl
    | some numeral =>
        obtain ⟨step, -, hnumeral⟩ := List.exists_of_findSome?_eq_some hfound
        exact captures_of_numeralOn? hnumeral

end Magnitude

/-- A finite number is its magnitude with its sign. -/
theorem eq_of_content {number : Float} {negative : Bool} {magnitude : Magnitude}
    (hcontent : Content.ofFloat number = .finite negative magnitude) :
    number = if negative then -pack magnitude false else pack magnitude false := by
  obtain ⟨hcanonical, hrange⟩ := Content.canonical_of_ofBits hcontent
  have hpack := hcanonical.ofFloat_pack hrange false
  cases negative with
  | false => exact Content.ofFloat_injective hcontent hpack
  | true => exact Content.ofFloat_injective hcontent (Content.ofFloat_neg hpack)

end Waveform.Decimal
