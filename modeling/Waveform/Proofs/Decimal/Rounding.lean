import Waveform.Proofs.Decimal.Interval

/-!
# Rounding gives the magnitude that captures a number

Arithmetic keeps a mantissa, an exponent and how far the exact result lies above them. It shifts
bits out until the mantissa fits, keeping what rounding has to know of them in two further bits,
and then rounds to the nearest mantissa, the even one of two.

The number in units of the last place is carried through: a shift halves it, the nearest natural
number is the rounded mantissa, and that mantissa captures the number on its scale. When rounding
reaches the limit of the mantissa, the first mantissa of the next scale captures it. Main
statement: `roundWithAccuracy_captures`.
-/

namespace Waveform.Decimal

open Float.Model Float.Model.UnpackedFloat

/-! ### Accuracy -/

/-- A number between a natural number and the next, and what its accuracy tells of it. -/
inductive Approximates (mantissa : Nat) (x : ℚ) : Accuracy → Prop
  | exact (heq : x = mantissa) : Approximates mantissa x .exact
  | below (hlow : mantissa < x) (hhigh : x < mantissa + 1 / 2) :
    Approximates mantissa x (.inexact .lt)
  | half (heq : x = mantissa + 1 / 2) : Approximates mantissa x (.inexact .eq)
  | above (hlow : mantissa + 1 / 2 < x) (hhigh : x < mantissa + 1) :
    Approximates mantissa x (.inexact .gt)

theorem Approximates.bounds {mantissa : Nat} {accuracy : Accuracy} {x : ℚ}
    (happroximates : Approximates mantissa x accuracy) : mantissa ≤ x ∧ x < mantissa + 1 := by
  cases happroximates with
  | exact => constructor <;> linarith
  | below => constructor <;> linarith
  | half => constructor <;> linarith
  | above => constructor <;> linarith

/-- A natural number is nearest to `x`, and even if there is another. -/
structure Nearest (nearest : Nat) (x : ℚ) : Prop where
  low_le : nearest - 1 / 2 ≤ x
  le_high : x ≤ nearest + 1 / 2
  even_of_eq_low : x = nearest - 1 / 2 → nearest % 2 = 0
  even_of_eq_high : x = nearest + 1 / 2 → nearest % 2 = 0

theorem Nearest.of_close {nearest : Nat} {x : ℚ} (hlow : nearest - 1 / 2 < x)
    (hhigh : x < nearest + 1 / 2) : Nearest nearest x :=
  ⟨hlow.le, hhigh.le, fun h => absurd h hlow.ne', fun h => absurd h hhigh.ne⟩

theorem Nearest.le_of_lt {nearest limit : Nat} {x : ℚ} (hnearest : Nearest nearest x)
    (hlt : x < limit) : nearest ≤ limit := by
  have hlow := hnearest.low_le
  have : (nearest : ℚ) < (limit + 1 : ℕ) := by
    push_cast
    linarith
  exact Nat.le_of_lt_succ (Nat.cast_lt.mp this)

theorem Nearest.le_of_le {nearest limit : Nat} {x : ℚ} (hnearest : Nearest nearest x)
    (hle : limit ≤ x) : limit ≤ nearest := by
  have hhigh := hnearest.le_high
  have : (limit : ℚ) < (nearest + 1 : ℕ) := by
    push_cast
    linarith
  exact Nat.le_of_lt_succ (Nat.cast_lt.mp this)

theorem Approximates.nearest {mantissa : Nat} {accuracy : Accuracy} {x : ℚ}
    (happroximates : Approximates mantissa x accuracy) :
    Nearest (accuracy.roundToNearestEven mantissa) x := by
  cases happroximates with
  | exact heq =>
      show Nearest mantissa x
      exact .of_close (by linarith) (by linarith)
  | below hlow hhigh =>
      show Nearest mantissa x
      exact .of_close (by linarith) (by linarith)
  | half heq =>
      show Nearest (mantissa + mantissa % 2) x
      obtain hparity | hparity := Nat.mod_two_eq_zero_or_one mantissa
      · rw [hparity]
        refine ⟨?_, ?_, fun _ => by omega, fun _ => by omega⟩
        · push_cast
          linarith
        · push_cast
          linarith
      · rw [hparity]
        refine ⟨?_, ?_, fun _ => by omega, fun _ => by omega⟩
        · push_cast
          linarith
        · push_cast
          linarith
  | above hlow hhigh =>
      show Nearest (mantissa + 1) x
      refine .of_close ?_ ?_
      · push_cast
        linarith
      · push_cast
        linarith

/-! ### Shifting -/

/-- What a mantissa with its two further bits stands for. -/
def Represents (extended : ExtendedMantissa) (x : ℚ) : Prop :=
  Approximates extended.mantissa x extended.accuracy

theorem represents_ofMantissaAndAccuracy {mantissa : Nat} {accuracy : Accuracy} {x : ℚ}
    (happroximates : Approximates mantissa x accuracy) :
    Represents (.ofMantissaAndAccuracy mantissa accuracy) x := by
  cases happroximates with
  | exact heq => exact .exact heq
  | below hlow hhigh => exact .below hlow hhigh
  | half heq => exact .half heq
  | above hlow hhigh => exact .above hlow hhigh

theorem shiftRightOne_even (half : Nat) (roundBit stickyBit : Bool) :
    ExtendedMantissa.shiftRightOne ⟨2 * half, roundBit, stickyBit⟩ =
      ⟨half, false, roundBit || stickyBit⟩ := by
  simp [ExtendedMantissa.shiftRightOne]

theorem shiftRightOne_odd (half : Nat) (roundBit stickyBit : Bool) :
    ExtendedMantissa.shiftRightOne ⟨2 * half + 1, roundBit, stickyBit⟩ =
      ⟨half, true, roundBit || stickyBit⟩ := by
  simp [ExtendedMantissa.shiftRightOne, Nat.mul_add_div]

/-- The bit that is shifted out is the round bit, and the bits that were there make it sticky. -/
theorem Represents.shiftRightOne {extended : ExtendedMantissa} {x : ℚ}
    (hrepresents : Represents extended x) : Represents extended.shiftRightOne (x / 2) := by
  obtain ⟨mantissa, roundBit, stickyBit⟩ := extended
  obtain ⟨half, rfl | rfl⟩ : ∃ half, mantissa = 2 * half ∨ mantissa = 2 * half + 1 :=
    ⟨mantissa / 2, by omega⟩
  · have hcast : ((2 * half : ℕ) : ℚ) = 2 * half := by push_cast; rfl
    rw [shiftRightOne_even]
    match roundBit, stickyBit, hrepresents with
    | false, false, .exact heq => exact .exact (show x / 2 = half by linarith)
    | false, true, .below hlow hhigh =>
      exact .below (show (half : ℚ) < x / 2 by linarith) (show x / 2 < half + 1 / 2 by linarith)
    | true, false, .half heq =>
      exact .below (show (half : ℚ) < x / 2 by linarith) (show x / 2 < half + 1 / 2 by linarith)
    | true, true, .above hlow hhigh =>
      exact .below (show (half : ℚ) < x / 2 by linarith) (show x / 2 < half + 1 / 2 by linarith)
  · have hcast : ((2 * half + 1 : ℕ) : ℚ) = 2 * half + 1 := by push_cast; rfl
    rw [shiftRightOne_odd]
    match roundBit, stickyBit, hrepresents with
    | false, false, .exact heq => exact .half (show x / 2 = half + 1 / 2 by linarith)
    | false, true, .below hlow hhigh =>
      exact .above (show (half : ℚ) + 1 / 2 < x / 2 by linarith)
        (show x / 2 < half + 1 by linarith)
    | true, false, .half heq =>
      exact .above (show (half : ℚ) + 1 / 2 < x / 2 by linarith)
        (show x / 2 < half + 1 by linarith)
    | true, true, .above hlow hhigh =>
      exact .above (show (half : ℚ) + 1 / 2 < x / 2 by linarith)
        (show x / 2 < half + 1 by linarith)

theorem Represents.shiftRight {extended : ExtendedMantissa} {x : ℚ}
    (hrepresents : Represents extended x) (count : Nat) :
    Represents (extended >>> count) (x / 2 ^ count) := by
  show Represents (count.repeat ExtendedMantissa.shiftRightOne extended) _
  induction count with
  | zero => simpa [Nat.repeat] using hrepresents
  | succ count ih =>
      rw [pow_succ, ← div_div]
      exact ih.shiftRightOne

/-! ### The scale of the result -/

theorem targetExponent_eq (mantissa : Nat) (exponent : Int) :
    Format.binary64.targetExponent (totalExponent mantissa exponent) =
      max (mantissa.log2 + exponent - 52) (-1074) := by
  show max ((mantissa.log2 : Int) + 1 + exponent - 53) (-1074) = _
  congr 1
  omega

/-- Where the mantissa ends up: below the limit, and full unless the exponent is the least. -/
theorem scaled_bounds {mantissa : Nat} {exponent : Int} {accuracy : Accuracy} {x : ℚ}
    (happroximates : Approximates mantissa (x / 2 ^ exponent) accuracy) {target : Int}
    (htarget : target = max (mantissa.log2 + exponent - 52) (-1074)) (hle : exponent ≤ target) :
    x / 2 ^ target < 2 ^ 53 ∧ (2 ^ 52 ≤ x / 2 ^ target ∨ target = -1074) := by
  obtain ⟨hlow, hhigh⟩ := happroximates.bounds
  have hscale : (0 : ℚ) < 2 ^ exponent := by positivity
  rw [le_div_iff₀ hscale] at hlow
  rw [div_lt_iff₀ hscale] at hhigh
  constructor
  · rw [div_lt_iff₀ (by positivity)]
    have hmantissa : mantissa + 1 ≤ 2 ^ (mantissa.log2 + 1) := Nat.lt_log2_self
    calc x < (mantissa + 1) * 2 ^ exponent := hhigh
      _ ≤ 2 ^ (mantissa.log2 + 1) * 2 ^ exponent :=
        mul_le_mul_of_nonneg_right (by exact_mod_cast hmantissa) hscale.le
      _ = (2 : ℚ) ^ ((mantissa.log2 + 1 : ℕ) + exponent : ℤ) := by
        rw [zpow_add₀ two_ne_zero, zpow_natCast]
      _ ≤ 2 ^ ((53 : ℕ) + target) := zpow_le_zpow_right₀ one_le_two (by omega)
      _ = 2 ^ 53 * 2 ^ target := by rw [zpow_add₀ two_ne_zero, zpow_natCast]
  · by_cases hleast : target = -1074
    · exact .inr hleast
    left
    have hpos : mantissa ≠ 0 := by
      rintro rfl
      have hlog : Nat.log2 0 = 0 := by decide
      omega
    rw [le_div_iff₀ (by positivity)]
    calc (2 : ℚ) ^ 52 * 2 ^ target = 2 ^ ((52 : ℕ) + target) := by
          rw [zpow_add₀ two_ne_zero, zpow_natCast]
      _ ≤ 2 ^ ((mantissa.log2 : ℕ) + exponent) := zpow_le_zpow_right₀ one_le_two (by omega)
      _ = (2 ^ mantissa.log2 : ℕ) * 2 ^ exponent := by
        rw [zpow_add₀ two_ne_zero, zpow_natCast]
        push_cast
        rfl
      _ ≤ mantissa * 2 ^ exponent :=
        mul_le_mul_of_nonneg_right (Nat.cast_le.mpr (Nat.log2_self_le hpos)) hscale.le
      _ ≤ x := hlow

/-! ### The nearest mantissa captures -/

/-- The numbers that round to a magnitude, counted in units of its last place. -/
theorem Magnitude.captures_scaled {mantissa : Nat} {exponent : Int} {y : ℚ}
    (hlow : ((4 * mantissa - quartersBelow ⟨mantissa, exponent⟩ : ℕ) : ℚ) ≤ 4 * y)
    (hhigh : 4 * y ≤ (4 * mantissa + 2 : ℕ))
    (heven : 4 * y = (4 * mantissa - quartersBelow ⟨mantissa, exponent⟩ : ℕ) → mantissa % 2 = 0)
    (heven' : 4 * y = (4 * mantissa + 2 : ℕ) → mantissa % 2 = 0) :
    (⟨mantissa, exponent⟩ : Magnitude).Captures (y * 2 ^ exponent) := by
  have hstep : (0 : ℚ) < 2 ^ (exponent - 2) := by positivity
  have hsplit : y * 2 ^ exponent = 4 * y * 2 ^ (exponent - 2) := by
    rw [zpow_sub₀ two_ne_zero]
    ring
  rw [hsplit]
  exact ⟨mul_le_mul_of_nonneg_right hlow hstep.le, mul_le_mul_of_nonneg_right hhigh hstep.le,
    fun h => heven (mul_right_cancel₀ hstep.ne' h), fun h => heven' (mul_right_cancel₀ hstep.ne' h)⟩

theorem Nearest.captures {nearest : Nat} {target : Int} {y : ℚ} (hnearest : Nearest nearest y)
    (hnonneg : 0 ≤ y) (hfull : 2 ^ 52 ≤ y ∨ target = -1074) :
    (⟨nearest, target⟩ : Magnitude).Captures (y * 2 ^ target) := by
  have hlow := hnearest.low_le
  have hhigh := hnearest.le_high
  have hquarters : ((4 * nearest - Magnitude.quartersBelow ⟨nearest, target⟩ : ℕ) : ℚ) ≤ 4 * y ∧
      (4 * y = (4 * nearest - Magnitude.quartersBelow ⟨nearest, target⟩ : ℕ) →
        nearest % 2 = 0) := by
    rw [Magnitude.quartersBelow]
    split
    · next hleast =>
      -- Below a power of two the numbers lie closer, and the number is not below it.
      obtain ⟨hmantissa, hexponent⟩ := hleast
      have hmantissa : nearest = 2 ^ 52 := hmantissa
      have hexponent : -1074 < target := hexponent
      have hy : 2 ^ 52 ≤ y := hfull.resolve_right (by omega)
      subst hmantissa
      refine ⟨?_, fun _ => rfl⟩
      push_cast
      linarith
    · cases nearest with
      | zero => exact ⟨by push_cast; linarith, fun _ => rfl⟩
      | succ previous =>
          have hcast : ((4 * (previous + 1) - 2 : ℕ) : ℚ) = 4 * (previous + 1 : ℕ) - 2 := by
            rw [Nat.cast_sub (by omega)]
            push_cast
            rfl
          rw [hcast]
          exact ⟨by linarith, fun heq => hnearest.even_of_eq_low (by linarith)⟩
  refine Magnitude.captures_scaled hquarters.1 ?_ hquarters.2 ?_
  · push_cast
    linarith
  · intro heq
    push_cast at heq
    exact hnearest.even_of_eq_high (by linarith)

/-- A mantissa that is rounded up to the limit makes a full one of the next binade. -/
theorem Nearest.captures_overflow {target : Int} {y : ℚ} (hnearest : Nearest (2 ^ 53) y)
    (hlt : y < 2 ^ 53) (htarget : -1074 ≤ target) :
    (⟨2 ^ 52, target + 1⟩ : Magnitude).Captures (y * 2 ^ target) := by
  have hquarters : Magnitude.quartersBelow ⟨2 ^ 52, target + 1⟩ = 1 :=
    if_pos ⟨rfl, by show (-1074 : Int) < target + 1; omega⟩
  have hlow := hnearest.low_le
  have hsplit : y * 2 ^ target = y / 2 * 2 ^ (target + 1) := by
    rw [zpow_add_one₀ two_ne_zero]
    ring
  rw [hsplit]
  refine Magnitude.captures_scaled ?_ ?_ (fun _ => rfl) (fun _ => rfl)
  · rw [hquarters]
    push_cast at hlow ⊢
    linarith
  · push_cast
    linarith

/-! ### Rounding -/

theorem shift_fitting {mantissa : Nat} {exponent : Int} (hlt : mantissa < 2 ^ 53)
    (hle : -1074 ≤ exponent) :
    shiftToTargetExponent .binary64 mantissa exponent .exact =
      (⟨mantissa, false, false⟩, exponent) := by
  have hlog : mantissa.log2 ≤ 52 := by
    by_cases hzero : mantissa = 0
    · rw [hzero]
      decide
    · have := (Nat.log2_lt hzero).mpr hlt
      omega
  have hamount : (Format.binary64.targetExponent (totalExponent mantissa exponent) -
      exponent).toNat = 0 := by
    rw [targetExponent_eq]
    omega
  simp only [shiftToTargetExponent, shiftToExponent, hamount]
  simp [HShiftRight.hShiftRight, Nat.repeat, ExtendedMantissa.ofMantissaAndAccuracy]

theorem shift_overflowing {exponent : Int} (hle : -1074 ≤ exponent) :
    shiftToTargetExponent .binary64 (2 ^ 53) exponent .exact =
      (⟨2 ^ 52, false, false⟩, exponent + 1) := by
  have hamount : (Format.binary64.targetExponent (totalExponent (2 ^ 53) exponent) -
      exponent).toNat = 1 := by
    rw [targetExponent_eq, Nat.log2_two_pow]
    omega
  simp only [shiftToTargetExponent, shiftToExponent, hamount]
  rfl

theorem shift_represents {mantissa : Nat} {exponent target : Int} {accuracy : Accuracy} {x : ℚ}
    (happroximates : Approximates mantissa (x / 2 ^ exponent) accuracy)
    (htarget : Format.binary64.targetExponent (totalExponent mantissa exponent) = target)
    (hle : exponent ≤ target) :
    ∃ extended, shiftToTargetExponent .binary64 mantissa exponent accuracy = (extended, target) ∧
      Represents extended (x / 2 ^ target) := by
  obtain ⟨amount, rfl⟩ : ∃ amount : Nat, target = exponent + amount :=
    ⟨(target - exponent).toNat, by omega⟩
  have hamount : (exponent + (amount : Int) - exponent).toNat = amount := by omega
  refine ⟨ExtendedMantissa.ofMantissaAndAccuracy mantissa accuracy >>> amount, ?_, ?_⟩
  · simp only [shiftToTargetExponent, shiftToExponent, htarget, hamount]
  · rw [zpow_add₀ two_ne_zero, zpow_natCast, ← div_div]
    exact (represents_ofMantissaAndAccuracy happroximates).shiftRight amount

/-- Rounding gives the canonical magnitude that captures the number. -/
theorem roundWithAccuracy_captures {mantissa : Nat} {exponent : Int} {accuracy : Accuracy} {x : ℚ}
    (happroximates : Approximates mantissa (x / 2 ^ exponent) accuracy)
    (hle : exponent ≤ Format.binary64.targetExponent (totalExponent mantissa exponent)) :
    ∃ magnitude : Magnitude, magnitude.Canonical ∧ magnitude.Captures x ∧
      roundWithAccuracy .binary64 .positive mantissa exponent accuracy =
        magnitude.unpacked false := by
  generalize htarget : Format.binary64.targetExponent (totalExponent mantissa exponent) = target
    at hle
  obtain ⟨extended, hshift, hrepresents⟩ := shift_represents happroximates htarget hle
  rw [targetExponent_eq] at htarget
  have hleast : -1074 ≤ target := by omega
  obtain ⟨hlt, hfull⟩ := scaled_bounds happroximates htarget.symm hle
  have hnearest : Nearest extended.roundedMantissa (x / 2 ^ target) := hrepresents.nearest
  have hx : x = x / 2 ^ target * 2 ^ target := (div_mul_cancel₀ x (by positivity)).symm
  have hnonneg : 0 ≤ x / 2 ^ target := le_trans (Nat.cast_nonneg _) hrepresents.bounds.1
  have hround : extended.roundedMantissa ≤ 2 ^ 53 := hnearest.le_of_lt (by exact_mod_cast hlt)
  rw [hx]
  rw [roundWithAccuracy]
  rw [hshift]
  simp only
  generalize extended.roundedMantissa = nearest at hnearest hround
  obtain hfits | rfl := Nat.lt_or_eq_of_le hround
  · rw [shift_fitting hfits hleast]
    have hcanonical : (⟨nearest, target⟩ : Magnitude).Canonical :=
      ⟨hfits, hleast, hfull.imp_left fun h => hnearest.le_of_le (by exact_mod_cast h)⟩
    exact ⟨⟨nearest, target⟩, hcanonical, hnearest.captures hnonneg hfull, rfl⟩
  · rw [shift_overflowing hleast]
    have hcanonical : (⟨2 ^ 52, target + 1⟩ : Magnitude).Canonical :=
      ⟨show 2 ^ 52 < 2 ^ 53 by decide, show -1074 ≤ target + 1 by omega, .inl (Nat.le_refl _)⟩
    exact ⟨⟨2 ^ 52, target + 1⟩, hcanonical, hnearest.captures_overflow hlt hleast, rfl⟩

end Waveform.Decimal
