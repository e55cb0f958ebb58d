import Waveform.Proofs.Decimal.Monotone
import Waveform.Proofs.Decimal.Numeral

/-!
# Operations round exact results

A sum, a difference, a product or a quotient of finite numbers is the exact result, rounded, with
the zeros of both signs and results out of range included. So is the number of a natural number.
With the order that rounding keeps, this gives the laws of order for the operations, and for sums
with infinities too.
-/

namespace Waveform.Decimal

open Float.Model Float.Model.UnpackedFloat

/-! ### Unpacked results -/

namespace Rounds

variable {result : UnpackedFloat} {x : ℚ}

theorem zero (sign : Sign) : Rounds (.zero sign) 0 := by
  obtain ⟨negative, rfl⟩ := exists_signOf sign
  refine ⟨negative, ⟨0, -1074⟩, Magnitude.canonical_least (by decide), ?_, rfl⟩
  have hzero : signed negative 0 = Magnitude.value ⟨0, -1074⟩ := by
    rw [Magnitude.value_zero]
    cases negative <;> simp
  rw [hzero]
  exact Magnitude.captures_value _

theorem of_roundsTo (hrounds : RoundsTo result x) : Rounds result x := by
  obtain ⟨magnitude, hcanonical, hcaptures, rfl⟩ := hrounds
  exact ⟨false, magnitude, hcanonical, hcaptures, rfl⟩

theorem neg (hrounds : Rounds result x) : Rounds result.neg (-x) := by
  obtain ⟨negative, magnitude, hcanonical, hcaptures, rfl⟩ := hrounds
  refine ⟨!negative, magnitude, hcanonical, ?_, (magnitude.unpacked_not negative).symm⟩
  rwa [signed_not, signed_neg, neg_neg]

/-- What is rounded with a sign is the positive result with that sign. -/
theorem withSign {mantissa : Nat} {exponent : Int} {accuracy : Accuracy}
    (hrounds : RoundsTo (roundWithAccuracy .binary64 .positive mantissa exponent accuracy) x)
    (negative : Bool) :
    Rounds (roundWithAccuracy .binary64 (signOf negative) mantissa exponent accuracy)
      (signed negative x) := by
  cases negative with
  | false => exact of_roundsTo hrounds
  | true =>
    have hneg := (of_roundsTo hrounds).neg
    rwa [← roundWithAccuracy_neg] at hneg

end Rounds

theorem round_rounds {mantissa : Nat} (exponent : Int) (hpos : 0 < mantissa) (negative : Bool) :
    Rounds (UnpackedFloat.round .binary64 (signOf negative) mantissa exponent)
      (signed negative (mantissa * 2 ^ exponent)) :=
  Rounds.withSign (round_roundsTo exponent hpos) negative

theorem normalize_rounds (mantissa exponent : Int) (sign : Sign) :
    Rounds (UnpackedFloat.normalize .binary64 mantissa exponent sign)
      (mantissa * 2 ^ exponent) := by
  rw [UnpackedFloat.normalize]
  obtain hlt | rfl | hgt := lt_trichotomy mantissa 0
  · obtain ⟨magnitude, rfl⟩ : ∃ magnitude : Nat, mantissa = -magnitude :=
      ⟨(-mantissa).toNat, by omega⟩
    have hround : Rounds (.round .binary64 .negative magnitude exponent)
        (-(magnitude * 2 ^ exponent)) := round_rounds exponent (by omega) true
    rw [Int.compare_eq_lt.mpr hlt]
    simpa using hround
  · rw [Int.cast_zero, zero_mul]
    exact .zero sign
  · obtain ⟨magnitude, rfl⟩ := Int.eq_ofNat_of_zero_le hgt.le
    have hround : Rounds (.round .binary64 .positive magnitude exponent)
        (magnitude * 2 ^ exponent) := round_rounds exponent (by omega) false
    rw [Int.compare_eq_gt.mpr hgt]
    simpa using hround

/-! ### Sums -/

theorem apply_decreaseExponent (negative : Bool) (magnitude : Magnitude) {target : Int}
    (hle : target ≤ magnitude.exponent) :
    (((signOf negative).apply (decreaseExponent magnitude.mantissa magnitude.exponent
      target).1 : ℤ) : ℚ) * 2 ^ target = signed negative magnitude.value := by
  obtain ⟨amount, hamount⟩ := Int.le.dest hle
  have hshift : (magnitude.exponent - target).toNat = amount := by omega
  have hvalue : ((magnitude.mantissa <<< amount : ℕ) : ℚ) * 2 ^ target = magnitude.value := by
    rw [Magnitude.value, ← hamount, zpow_add₀ two_ne_zero, zpow_natCast, Nat.shiftLeft_eq]
    push_cast
    ring
  simp only [decreaseExponent, hshift]
  cases negative with
  | false => exact hvalue
  | true =>
    rw [signed_true, ← hvalue]
    show ((-((magnitude.mantissa <<< amount : ℕ) : ℤ) : ℤ) : ℚ) * 2 ^ target = _
    rw [Int.cast_neg, Int.cast_natCast, neg_mul]

theorem Magnitude.Canonical.rounds {magnitude : Magnitude} (hcanonical : magnitude.Canonical)
    (negative : Bool) :
    Rounds (magnitude.unpacked negative) (signed negative magnitude.value) := by
  refine ⟨negative, magnitude, hcanonical, ?_, rfl⟩
  rw [signed_signed]
  exact magnitude.captures_value

section Unpacked

variable {magnitude magnitude' : Magnitude} (negative negative' : Bool)

theorem add_rounds (hcanonical : magnitude.Canonical) (hcanonical' : magnitude'.Canonical) :
    Rounds (.add .binary64 (magnitude.unpacked negative) (magnitude'.unpacked negative'))
      (signed negative magnitude.value + signed negative' magnitude'.value) := by
  have hrounds := hcanonical.rounds negative
  have hrounds' := hcanonical'.rounds negative'
  obtain ⟨mantissa, exponent⟩ := magnitude
  obtain ⟨mantissa', exponent'⟩ := magnitude'
  obtain rfl | hpos := Nat.eq_zero_or_pos mantissa
  · rw [Magnitude.value_zero, signed_zero, zero_add]
    obtain rfl | hpos' := Nat.eq_zero_or_pos mantissa'
    · rw [Magnitude.value_zero, signed_zero]
      cases negative <;> cases negative' <;> exact .zero _
    · rw [Magnitude.unpacked_of_pos _ hpos'] at hrounds' ⊢
      exact hrounds'
  · rw [Magnitude.unpacked_of_pos _ hpos] at hrounds ⊢
    obtain rfl | hpos' := Nat.eq_zero_or_pos mantissa'
    · rw [Magnitude.value_zero, signed_zero, add_zero]
      exact hrounds
    · rw [Magnitude.unpacked_of_pos _ hpos']
      rw [← apply_decreaseExponent negative ⟨mantissa, exponent⟩ (min_le_left exponent exponent'),
        ← apply_decreaseExponent negative' ⟨mantissa', exponent'⟩ (min_le_right exponent exponent'),
        ← add_mul, ← Int.cast_add]
      exact normalize_rounds _ _ .positive

theorem sub_rounds (hcanonical : magnitude.Canonical) (hcanonical' : magnitude'.Canonical) :
    Rounds (.sub .binary64 (magnitude.unpacked negative) (magnitude'.unpacked negative'))
      (signed negative magnitude.value - signed negative' magnitude'.value) := by
  rw [← unpacked_add_neg, ← Magnitude.unpacked_not, sub_eq_add_neg, ← signed_not]
  exact add_rounds negative (!negative') hcanonical hcanonical'

theorem signOf_mul : signOf negative * signOf negative' = signOf (negative != negative') := by
  cases negative <;> cases negative' <;> rfl

theorem signed_mul (x y : ℚ) :
    signed negative x * signed negative' y = signed (negative != negative') (x * y) := by
  cases negative <;> cases negative' <;> simp

/-- A product has bits enough to be rounded, or lies below the least place anyway. -/
theorem mul_rounds (hcanonical : magnitude.Canonical) (hcanonical' : magnitude'.Canonical) :
    Rounds (.mul .binary64 (magnitude.unpacked negative) (magnitude'.unpacked negative'))
      (signed negative magnitude.value * signed negative' magnitude'.value) := by
  obtain ⟨mantissa, exponent⟩ := magnitude
  obtain ⟨mantissa', exponent'⟩ := magnitude'
  obtain rfl | hpos := Nat.eq_zero_or_pos mantissa
  · rw [Magnitude.value_zero, signed_zero, zero_mul]
    rw [Magnitude.unpacked, dif_pos rfl, Magnitude.unpacked]
    split <;> exact .zero _
  · rw [Magnitude.unpacked_of_pos _ hpos]
    obtain rfl | hpos' := Nat.eq_zero_or_pos mantissa'
    · rw [Magnitude.value_zero, signed_zero, mul_zero]
      exact .zero _
    · rw [Magnitude.unpacked_of_pos _ hpos', signed_mul]
      have hfull : 2 ^ 52 ≤ mantissa * mantissa' ∨ exponent + exponent' ≤ -1074 := by
        obtain hfull | rfl := hcanonical.full
        · exact .inl (hfull.trans (Nat.le_mul_of_pos_right _ hpos'))
        · obtain hfull' | rfl := hcanonical'.full
          · exact .inl (hfull'.trans (Nat.le_mul_of_pos_left _ hpos))
          · exact .inr (by decide)
      have hproduct := Rounds.withSign (mul_roundsTo hpos hpos' hfull)
        (negative != negative')
      rw [← signOf_mul] at hproduct
      exact hproduct

theorem signOf_div : signOf negative / signOf negative' = signOf (negative != negative') := by
  cases negative <;> cases negative' <;> rfl

theorem signed_div (x y : ℚ) :
    signed negative x / signed negative' y = signed (negative != negative') (x / y) := by
  cases negative <;> cases negative' <;> simp [neg_div, div_neg]

theorem div_rounds (hpos' : 0 < magnitude'.mantissa) :
    Rounds (.div .binary64 (magnitude.unpacked negative) (magnitude'.unpacked negative'))
      (signed negative magnitude.value / signed negative' magnitude'.value) := by
  obtain ⟨mantissa, exponent⟩ := magnitude
  rw [Magnitude.unpacked_of_pos _ hpos']
  obtain rfl | hpos := Nat.eq_zero_or_pos mantissa
  · rw [Magnitude.value_zero, signed_zero, zero_div]
    exact .zero _
  · rw [Magnitude.unpacked_of_pos _ hpos, signed_div]
    have hpositive : RoundsTo (.div .binary64 (.finite .positive mantissa exponent hpos)
        (.finite .positive magnitude'.mantissa magnitude'.exponent hpos')) _ :=
      div_roundsTo hpos hpos'
    have hquotient := Rounds.withSign hpositive (negative != negative')
    rw [← signOf_div] at hquotient
    exact hquotient

end Unpacked

/-! ### Numbers -/

section Numbers

variable {x y z : Float}

theorem unpack_of_isFinite (hfinite : x.isFinite) :
    ∃ (negative : Bool) (magnitude : Magnitude), magnitude.Canonical ∧
      x.toModel.unpack = magnitude.unpacked negative ∧
      rank x = signed negative magnitude.value := by
  obtain ⟨negative, magnitude, hcontent⟩ := isFinite_iff.mp hfinite
  refine ⟨negative, magnitude, (Content.canonical_of_ofBits hcontent).1, ?_,
    rank_eq_of_content hcontent⟩
  rw [unpack_toModel, hcontent]
  rfl

/-- What rounds the exact results of canonical magnitudes rounds those of finite numbers. -/
theorem isRounding_of_rounds {operation : UnpackedFloat → UnpackedFloat → UnpackedFloat}
    {exact : ℚ → ℚ → ℚ}
    (hrounds : ∀ {magnitude magnitude' : Magnitude} (negative negative' : Bool),
      magnitude.Canonical → magnitude'.Canonical →
        Rounds (operation (magnitude.unpacked negative) (magnitude'.unpacked negative'))
          (exact (signed negative magnitude.value) (signed negative' magnitude'.value)))
    (hx : x.isFinite) (hy : y.isFinite) :
    IsRounding (.ofModel (.pack (operation x.toModel.unpack y.toModel.unpack)))
      (exact (rank x) (rank y)) := by
  obtain ⟨negative, magnitude, hcanonical, hunpack, hrank⟩ := unpack_of_isFinite hx
  obtain ⟨negative', magnitude', hcanonical', hunpack', hrank'⟩ := unpack_of_isFinite hy
  rw [hunpack, hunpack', hrank, hrank']
  exact (hrounds negative negative' hcanonical hcanonical').isRounding_pack

theorem isRounding_add (hx : x.isFinite) (hy : y.isFinite) :
    IsRounding (x + y) (rank x + rank y) :=
  isRounding_of_rounds add_rounds hx hy

theorem isRounding_sub (hx : x.isFinite) (hy : y.isFinite) :
    IsRounding (x - y) (rank x - rank y) :=
  isRounding_of_rounds sub_rounds hx hy

theorem isRounding_mul (hx : x.isFinite) (hy : y.isFinite) :
    IsRounding (x * y) (rank x * rank y) :=
  isRounding_of_rounds mul_rounds hx hy

theorem isRounding_div (hx : x.isFinite) (hy : y.isFinite) (hne : rank y ≠ 0) :
    IsRounding (x / y) (rank x / rank y) := by
  obtain ⟨negative, magnitude, -, hunpack, hrank⟩ := unpack_of_isFinite hx
  obtain ⟨negative', ⟨mantissa, exponent⟩, -, hunpack', hrank'⟩ := unpack_of_isFinite hy
  have hpos : 0 < mantissa := by
    refine Nat.pos_of_ne_zero fun hzero => hne ?_
    rw [hrank', hzero, Magnitude.value_zero, signed_zero]
  have hrounds : Rounds (.div .binary64 (magnitude.unpacked negative)
      (Magnitude.unpacked ⟨mantissa, exponent⟩ negative')) _ := div_rounds negative negative' hpos
  rw [← hunpack, ← hunpack', ← hrank, ← hrank'] at hrounds
  exact hrounds.isRounding_pack

end Numbers

/-! ### Natural numbers -/

section NaturalNumbers

variable {n : Nat}

theorem natCast_le_overflow (hlt : n < 2 ^ 64) : (n : ℚ) ≤ overflow / 2 := by
  calc (n : ℚ) ≤ 2 ^ 64 := by exact_mod_cast hlt.le
    _ ≤ overflow / 2 := by
      rw [le_div_iff₀ two_pos, ← pow_succ, overflow]
      exact pow_le_pow_right₀ one_le_two (by decide)

theorem isRounding_ofNat (n : Nat) : IsRounding (.ofNat n) n := by
  obtain ⟨magnitude, hcanonical, hcaptures, hnumber⟩ := isReading_whole n
  exact ⟨false, magnitude, hcanonical, hcaptures, hnumber⟩

theorem isFinite_ofNat (hlt : n < 2 ^ 64) : (Float.ofNat n).isFinite := by
  refine (isRounding_ofNat _).isFinite_of_abs_le ?_
  rw [abs_of_nonneg (Nat.cast_nonneg n)]
  exact natCast_le_overflow hlt

theorem rank_one : rank 1 = 1 := by
  have hcontent : Content.ofFloat 1 = .finite false ⟨2 ^ 52, -52⟩ := by decide
  rw [rank_eq_of_content hcontent, signed_false, Magnitude.value]
  norm_num

theorem one_le_rank_ofNat (hpos : 0 < n) : 1 ≤ rank (.ofNat n) := by
  have hone := isRounding_rank (show (1 : Float).isFinite by decide)
  rw [rank_one] at hone
  rw [← rank_one]
  exact hone.rank_le (isRounding_ofNat _) (by exact_mod_cast hpos)

theorem rank_ofNat_zero : rank (.ofNat 0) = 0 := by
  have hzero := isRounding_ofNat 0
  rw [Nat.cast_zero] at hzero
  exact hzero.rank_eq_zero

theorem ofNat_le_ofNat {m : Nat} (hle : m ≤ n) : Float.ofNat m ≤ Float.ofNat n :=
  (isRounding_ofNat _).le (isRounding_ofNat _) (Nat.cast_le.mpr hle)

end NaturalNumbers

/-! ### Laws of order -/

section Order

variable {x y z : Float}

/-- All finite numbers are multiples of the least positive one. -/
theorem exists_rank_eq (hfinite : x.isFinite) : ∃ units : ℤ, rank x = units * 2 ^ (-1074 : ℤ) := by
  obtain ⟨negative, magnitude, hcanonical, -, hrank⟩ := unpack_of_isFinite hfinite
  exact ⟨_, hrank.trans (apply_decreaseExponent negative magnitude hcanonical.le_exponent).symm⟩

theorem content_add_infinite {negative : Bool} (hx : x.isFinite)
    (hy : Content.ofFloat y = .infinite negative) :
    Content.ofFloat (x + y) = .infinite negative := by
  obtain ⟨negative', magnitude, -, hunpack, -⟩ := unpack_of_isFinite hx
  have hsum : UnpackedFloat.add .binary64 x.toModel.unpack y.toModel.unpack =
      .infinity (signOf negative) := by
    rw [hunpack, unpack_toModel y, hy, Magnitude.unpacked]
    split <;> rfl
  show Content.ofBits (UnpackedFloat.pack .binary64
    (.add .binary64 x.toModel.unpack y.toModel.unpack)).toNat = _
  rw [hsum]
  exact ofBits_packedInfinity negative

theorem content_of_not_isFinite (hnan : ¬x.isNaN) (hinfinite : ¬x.isFinite) :
    ∃ negative, Content.ofFloat x = .infinite negative := by
  rw [isNaN_iff] at hnan
  rw [isFinite_iff] at hinfinite
  cases hcontent : Content.ofFloat x with
  | nan => exact absurd hcontent hnan
  | infinite negative => exact ⟨negative, rfl⟩
  | finite negative magnitude => exact absurd ⟨negative, magnitude, hcontent⟩ hinfinite

theorem not_isNaN_add (hx : x.isFinite) (hy : ¬y.isNaN) : ¬(x + y).isNaN := by
  by_cases hfinite : y.isFinite
  · exact (isRounding_add hx hfinite).not_isNaN
  · obtain ⟨negative, hcontent⟩ := content_of_not_isFinite hy hfinite
    rw [isNaN_iff, content_add_infinite hx hcontent]
    exact Content.noConfusion

theorem rank_add_infinite (hx : x.isFinite) (hy : ¬y.isNaN) (hinfinite : ¬y.isFinite) :
    rank (x + y) = rank y := by
  obtain ⟨negative, hcontent⟩ := content_of_not_isFinite hy hinfinite
  rw [rank, rank, content_add_infinite hx hcontent, hcontent]

theorem rank_of_not_isFinite (hnan : ¬x.isNaN) (hinfinite : ¬x.isFinite) :
    rank x = overflow ∨ rank x = -overflow := by
  obtain ⟨negative, hcontent⟩ := content_of_not_isFinite hnan hinfinite
  rw [rank, hcontent]
  cases negative with
  | false => exact .inl rfl
  | true => exact .inr rfl

/-- To add a finite number keeps the order, beside infinities as well. -/
theorem add_le_add_of_isFinite (hx : x.isFinite) (hyz : y ≤ z) : x + y ≤ x + z := by
  obtain ⟨hy, hz, hrank⟩ := le_iff.mp hyz
  refine le_iff.mpr ⟨not_isNaN_add hx hy, not_isNaN_add hx hz, ?_⟩
  have hsum := abs_le.mp (abs_rank_le (x + y))
  have hsum' := abs_le.mp (abs_rank_le (x + z))
  by_cases hfinite : y.isFinite
  · by_cases hfinite' : z.isFinite
    · exact (isRounding_add hx hfinite).rank_le (isRounding_add hx hfinite') (by linarith)
    · have hbelow := (abs_lt.mp ((isFinite_iff_rank hy).mp hfinite)).1
      have hrank' := rank_add_infinite hx hz hfinite'
      obtain hz' | hz' := rank_of_not_isFinite hz hfinite' <;> linarith
  · have hrank' := rank_add_infinite hx hy hfinite
    obtain hy' | hy' := rank_of_not_isFinite hy hfinite
    · have hfinite' : ¬z.isFinite := by
        rw [isFinite_iff_rank hz, abs_lt]
        exact fun hlt => by linarith
      have hrank'' := rank_add_infinite hx hz hfinite'
      linarith
    · linarith

theorem rank_sub_pos (hx : x.isFinite) (hy : y.isFinite) (hlt : x < y) : 0 < rank (y - x) := by
  obtain ⟨-, -, hrank⟩ := lt_iff.mp hlt
  obtain ⟨units, hunits⟩ := exists_rank_eq hx
  obtain ⟨units', hunits'⟩ := exists_rank_eq hy
  have hleast : (0 : ℚ) < 2 ^ (-1074 : ℤ) := by positivity
  have hapart : 2 ^ (-1074 : ℤ) ≤ rank y - rank x := by
    rw [hunits, hunits', ← sub_mul]
    rw [hunits, hunits', mul_lt_mul_iff_left₀ hleast] at hrank
    have hcast : (1 : ℚ) ≤ units' - units := by
      have hunit : units + 1 ≤ units' := by exact_mod_cast hrank
      exact_mod_cast (by omega : 1 ≤ units' - units)
    exact le_mul_of_one_le_left hleast.le hcast
  have hcanonical : (⟨1, -1074⟩ : Magnitude).Canonical := Magnitude.canonical_least (by decide)
  have hvalue : Magnitude.value ⟨1, -1074⟩ = 2 ^ (-1074 : ℤ) := by
    rw [Magnitude.value, Nat.cast_one, one_mul]
  have hself := (hcanonical.rounds false).isRounding_pack
  rw [signed_false, hvalue] at hself
  have hpos : 0 < rank (pack ⟨1, -1074⟩ false) := by
    rw [hcanonical.rank_pack, signed_false, hvalue]
    exact lt_min hleast overflow_pos
  exact hpos.trans_le (hself.rank_le (isRounding_sub hy hx) hapart)

theorem mul_le_mul_of_isFinite (hx : x.isFinite) (hy : y.isFinite) (hz : z.isFinite)
    (hnonneg : 0 ≤ x) (hyz : y ≤ z) : x * y ≤ x * z := by
  obtain ⟨-, -, hx'⟩ := le_iff.mp hnonneg
  obtain ⟨-, -, hrank⟩ := le_iff.mp hyz
  rw [rank_zero] at hx'
  exact (isRounding_mul hx hy).le (isRounding_mul hx hz) (mul_le_mul_of_nonneg_left hrank hx')

end Order

end Waveform.Decimal
