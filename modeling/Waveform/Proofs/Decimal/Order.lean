import Waveform.Proofs.Decimal.Interval
import Waveform.Proofs.Decimal.Signs

/-!
# The order of numbers

Every number but NaN has a rank, an exact number: a finite number its value, and an infinity the
power of two that all finite magnitudes lie below. Numbers compare as their ranks do. Comparison
looks at signs, then at exponents, then at mantissas, and agrees with the values because
magnitudes are canonical. Main statements: `le_iff`, `lt_iff` and `beq_iff`.
-/

namespace Waveform.Decimal

open Float.Model Float.Model.UnpackedFloat

/-! ### Signs -/

def signed (negative : Bool) (x : ℚ) : ℚ := if negative then -x else x

@[simp] theorem signed_false (x : ℚ) : signed false x = x := rfl

@[simp] theorem signed_true (x : ℚ) : signed true x = -x := rfl

@[simp] theorem signed_zero (negative : Bool) : signed negative 0 = 0 := by
  cases negative <;> simp

theorem signed_not (negative : Bool) (x : ℚ) : signed (!negative) x = -signed negative x := by
  cases negative <;> simp

theorem signed_neg (negative : Bool) (x : ℚ) : signed negative (-x) = -signed negative x := by
  cases negative <;> rfl

theorem signed_signed (negative : Bool) (x : ℚ) : signed negative (signed negative x) = x := by
  cases negative <;> simp

theorem abs_signed (negative : Bool) {x : ℚ} (hnonneg : 0 ≤ x) : |signed negative x| = x := by
  cases negative <;> simp [hnonneg]

/-! ### Ranks -/

/-- The least power of two that no finite number reaches. -/
def overflow : ℚ := 2 ^ 1024

theorem overflow_pos : 0 < overflow := by
  rw [overflow]
  positivity

def Content.rank : Content → ℚ
  | .nan => 0
  | .infinite negative => signed negative overflow
  | .finite negative magnitude => signed negative magnitude.value

/-- Where a number lies in the order of numbers. -/
def rank (number : Float) : ℚ := (Content.ofFloat number).rank

theorem rank_eq_of_content {number : Float} {negative : Bool} {magnitude : Magnitude}
    (hcontent : Content.ofFloat number = .finite negative magnitude) :
    rank number = signed negative magnitude.value := by
  rw [rank, hcontent]
  rfl

/-! ### Canonical magnitudes -/

namespace Magnitude

theorem value_nonneg (magnitude : Magnitude) : 0 ≤ magnitude.value := by
  rw [value]
  positivity

theorem value_pos {magnitude : Magnitude} (hpos : 0 < magnitude.mantissa) :
    0 < magnitude.value := by
  have hmantissa : (0 : ℚ) < magnitude.mantissa := Nat.cast_pos.mpr hpos
  rw [value]
  positivity

theorem value_lt_iff {mantissa mantissa' : Nat} {exponent : Int} :
    value ⟨mantissa, exponent⟩ < value ⟨mantissa', exponent⟩ ↔ mantissa < mantissa' := by
  rw [value, value, mul_lt_mul_iff_left₀ (by positivity), Nat.cast_lt]

namespace Canonical

variable {magnitude other : Magnitude}

theorem value_lt_pow (hcanonical : magnitude.Canonical) {exponent : Int}
    (hlt : magnitude.exponent < exponent) : magnitude.value < 2 ^ (52 + exponent) := by
  have hmantissa : (magnitude.mantissa : ℚ) < 2 ^ 53 := by
    exact_mod_cast hcanonical.mantissa_lt
  calc magnitude.value < 2 ^ 53 * 2 ^ magnitude.exponent :=
        mul_lt_mul_of_pos_right hmantissa (by positivity)
    _ = 2 ^ ((53 : ℕ) + magnitude.exponent) := by rw [zpow_add₀ two_ne_zero, zpow_natCast]
    _ ≤ 2 ^ (52 + exponent) := zpow_le_zpow_right₀ one_le_two (by omega)

theorem pow_le_value (hcanonical : magnitude.Canonical) (hlt : -1074 < magnitude.exponent) :
    2 ^ (52 + magnitude.exponent) ≤ magnitude.value := by
  have hleast : leastNormalMantissa = 2 ^ 52 := rfl
  have hexponent : leastExponent = -1074 := rfl
  have hmantissa : 2 ^ 52 ≤ magnitude.mantissa := hcanonical.full.resolve_right (by omega)
  have hcast : (2 : ℚ) ^ 52 ≤ magnitude.mantissa := by exact_mod_cast hmantissa
  rw [zpow_add₀ two_ne_zero, value]
  exact mul_le_mul_of_nonneg_right hcast (by positivity)

theorem value_lt_of_exponent_lt (hcanonical : magnitude.Canonical) (hother : other.Canonical)
    (hlt : magnitude.exponent < other.exponent) : magnitude.value < other.value := by
  have hleast : -1074 ≤ magnitude.exponent := hcanonical.le_exponent
  exact (hcanonical.value_lt_pow hlt).trans_le (hother.pow_le_value (by omega))

theorem compare_value (hcanonical : magnitude.Canonical) (hother : other.Canonical) :
    (compare magnitude.exponent other.exponent).then (compare magnitude.mantissa other.mantissa) =
      compare magnitude.value other.value := by
  obtain ⟨mantissa, exponent⟩ := magnitude
  obtain ⟨mantissa', exponent'⟩ := other
  obtain hlt | rfl | hgt := lt_trichotomy exponent exponent'
  · have hvalue := hcanonical.value_lt_of_exponent_lt hother hlt
    rw [compare_lt_iff_lt.mpr hlt, compare_lt_iff_lt.mpr hvalue]
    rfl
  · rw [compare_eq_iff_eq.mpr rfl]
    obtain hlt | rfl | hgt := lt_trichotomy mantissa mantissa'
    · rw [compare_lt_iff_lt.mpr hlt, compare_lt_iff_lt.mpr (value_lt_iff.mpr hlt)]
      rfl
    · rw [compare_eq_iff_eq.mpr rfl, compare_eq_iff_eq.mpr rfl]
      rfl
    · rw [compare_gt_iff_gt.mpr hgt, compare_gt_iff_gt.mpr (value_lt_iff.mpr hgt)]
      rfl
  · have hvalue := hother.value_lt_of_exponent_lt hcanonical hgt
    rw [compare_gt_iff_gt.mpr hgt, compare_gt_iff_gt.mpr hvalue]
    rfl

/-- A canonical magnitude is within range exactly if it lies below the overflow. -/
theorem value_lt_overflow_iff (hcanonical : magnitude.Canonical) :
    magnitude.value < overflow ↔ magnitude.exponent ≤ 971 := by
  have hoverflow : overflow = 2 ^ (52 + 972 : ℤ) := by
    rw [overflow, ← zpow_natCast]
    rfl
  constructor
  · intro hlt
    by_contra hexponent
    have hle := hcanonical.pow_le_value (by omega)
    have hpow : overflow ≤ 2 ^ (52 + magnitude.exponent) := by
      rw [hoverflow]
      exact zpow_le_zpow_right₀ one_le_two (by omega)
    exact absurd hlt (not_lt.mpr (hpow.trans hle))
  · intro hle
    rw [hoverflow]
    exact hcanonical.value_lt_pow (by omega)

end Canonical

end Magnitude

/-! ### Comparison -/

/-- An unpacked number that is not NaN, and its rank. -/
inductive Ranked : UnpackedFloat → ℚ → Prop
  | zero (sign : Sign) : Ranked (.zero sign) 0
  | infinity (negative : Bool) : Ranked (.infinity (signOf negative)) (signed negative overflow)
  | finite (negative : Bool) {magnitude : Magnitude} (hcanonical : magnitude.Canonical)
      (hlt : magnitude.value < overflow) (hpos : 0 < magnitude.mantissa) :
      Ranked (.finite (signOf negative) magnitude.mantissa magnitude.exponent hpos)
        (signed negative magnitude.value)

theorem some_lt {x y : ℚ} (hlt : x < y) : some Ordering.lt = some (compare x y) :=
  congrArg some (compare_lt_iff_lt.mpr hlt).symm

theorem some_gt {x y : ℚ} (hlt : y < x) : some Ordering.gt = some (compare x y) :=
  congrArg some (compare_gt_iff_gt.mpr hlt).symm

theorem some_eq (x : ℚ) : some Ordering.eq = some (compare x x) :=
  congrArg some (compare_eq_iff_eq.mpr rfl).symm

theorem swap_compare (x y : ℚ) : (compare x y).swap = compare (-x) (-y) := by
  obtain hlt | rfl | hgt := lt_trichotomy x y
  · rw [compare_lt_iff_lt.mpr hlt, compare_gt_iff_gt.mpr (neg_lt_neg hlt)]
    rfl
  · rw [compare_eq_iff_eq.mpr rfl, compare_eq_iff_eq.mpr rfl]
    rfl
  · rw [compare_gt_iff_gt.mpr hgt, compare_lt_iff_lt.mpr (neg_lt_neg hgt)]
    rfl

theorem Ranked.compare_eq {a b : UnpackedFloat} {x y : ℚ} (ha : Ranked a x) (hb : Ranked b y) :
    a.compare b = some (compare x y) := by
  have hoverflow := overflow_pos
  have hbelow : -overflow < 0 := neg_lt_zero.mpr hoverflow
  cases ha with
  | zero =>
    cases hb with
    | zero => exact some_eq 0
    | infinity negative =>
      cases negative with
      | false => exact some_lt hoverflow
      | true => exact some_gt hbelow
    | finite negative _ _ hpos =>
      have hvalue := Magnitude.value_pos hpos
      cases negative with
      | false => exact some_lt hvalue
      | true => exact some_gt (neg_lt_zero.mpr hvalue)
  | infinity negative =>
    cases hb with
    | zero =>
      cases negative with
      | false => exact some_gt hoverflow
      | true => exact some_lt hbelow
    | infinity other =>
      cases negative <;> cases other
      · exact some_eq overflow
      · exact some_gt (hbelow.trans hoverflow)
      · exact some_lt (hbelow.trans hoverflow)
      · exact some_eq (-overflow)
    | finite other _ hlt hpos =>
      have hvalue := Magnitude.value_pos hpos
      cases negative <;> cases other
      · exact some_gt hlt
      · exact some_gt ((neg_lt_zero.mpr hvalue).trans hoverflow)
      · exact some_lt (hbelow.trans hvalue)
      · exact some_lt (neg_lt_neg hlt)
  | finite negative hcanonical hlt hpos =>
    have hvalue := Magnitude.value_pos hpos
    cases hb with
    | zero =>
      cases negative with
      | false => exact some_gt hvalue
      | true => exact some_lt (neg_lt_zero.mpr hvalue)
    | infinity other =>
      cases negative <;> cases other
      · exact some_lt hlt
      · exact some_gt (hbelow.trans hvalue)
      · exact some_lt ((neg_lt_zero.mpr hvalue).trans hoverflow)
      · exact some_gt (neg_lt_neg hlt)
    | finite other hcanonical' _ hpos' =>
      have hvalue' := Magnitude.value_pos hpos'
      cases negative <;> cases other
      · exact congrArg some (hcanonical.compare_value hcanonical')
      · exact some_gt ((neg_lt_zero.mpr hvalue').trans hvalue)
      · exact some_lt ((neg_lt_zero.mpr hvalue).trans hvalue')
      · refine congrArg some ?_
        rw [hcanonical.compare_value hcanonical']
        exact swap_compare _ _

theorem ranked_unpacked {magnitude : Magnitude} (hcanonical : magnitude.Canonical)
    (hlt : magnitude.value < overflow) (negative : Bool) :
    Ranked (magnitude.unpacked negative) (signed negative magnitude.value) := by
  rw [Magnitude.unpacked]
  split
  · next hzero =>
    have hvalue : signed negative magnitude.value = 0 := by
      rw [Magnitude.value, hzero, Nat.cast_zero, zero_mul]
      cases negative <;> simp
    rw [hvalue]
    exact .zero _
  · next hzero => exact .finite negative hcanonical hlt (Nat.pos_of_ne_zero hzero)

theorem isNaN_iff {number : Float} : number.isNaN ↔ Content.ofFloat number = .nan := by
  show number.toModel.unpack.isNaN = true ↔ _
  rw [unpack_toModel]
  cases Content.ofFloat number with
  | nan => simp [Content.unpacked, UnpackedFloat.isNaN]
  | infinite negative => simp [Content.unpacked, UnpackedFloat.isNaN]
  | finite negative magnitude =>
    simp only [Content.unpacked, Magnitude.unpacked]
    split <;> simp [UnpackedFloat.isNaN]

theorem ranked_unpack {number : Float} (hnumber : ¬number.isNaN) :
    Ranked number.toModel.unpack (rank number) := by
  rw [isNaN_iff] at hnumber
  rw [unpack_toModel, rank]
  cases hcontent : Content.ofFloat number with
  | nan => exact absurd hcontent hnumber
  | infinite negative => exact .infinity negative
  | finite negative magnitude =>
    obtain ⟨hcanonical, hrange⟩ := Content.canonical_of_ofBits hcontent
    exact ranked_unpacked hcanonical (hcanonical.value_lt_overflow_iff.mpr hrange) negative

/-! ### Numbers -/

section Numbers

variable {x y z : Float}

theorem compare_unpack (hx : ¬x.isNaN) (hy : ¬y.isNaN) :
    x.toModel.unpack.compare y.toModel.unpack = some (compare (rank x) (rank y)) :=
  (ranked_unpack hx).compare_eq (ranked_unpack hy)

theorem unpack_of_isNaN (hx : x.isNaN) : x.toModel.unpack = .notANumber := by
  rw [unpack_toModel, isNaN_iff.mp hx]
  rfl

theorem compare_unpack_of_isNaN (hnan : x.isNaN ∨ y.isNaN) :
    x.toModel.unpack.compare y.toModel.unpack = none := by
  obtain hx | hy := hnan
  · rw [unpack_of_isNaN hx]
    rfl
  · rw [unpack_of_isNaN hy]
    cases x.toModel.unpack with
    | notANumber | zero => rfl
    | infinity sign | finite sign => cases sign <;> rfl

/-- A comparison that NaN fails is one of the ranks of two numbers. -/
theorem compare_iff (holds : Option Ordering → Bool) (hnone : holds none = false) :
    holds (x.toModel.unpack.compare y.toModel.unpack) = true ↔
      ¬x.isNaN ∧ ¬y.isNaN ∧ holds (some (compare (rank x) (rank y))) = true := by
  by_cases hnan : x.isNaN ∨ y.isNaN
  · rw [compare_unpack_of_isNaN hnan, hnone]
    refine iff_of_false Bool.false_ne_true fun hholds => ?_
    exact hnan.elim hholds.1 hholds.2.1
  · obtain ⟨hx, hy⟩ := not_or.mp hnan
    rw [compare_unpack hx hy]
    exact ⟨fun hholds => ⟨hx, hy, hholds⟩, fun hholds => hholds.2.2⟩

theorem le_iff : x ≤ y ↔ ¬x.isNaN ∧ ¬y.isNaN ∧ rank x ≤ rank y := by
  have hle : x ≤ y ↔ x.toModel.unpack.le y.toModel.unpack = true := decide_eq_true_iff
  have hrank : (compare (rank x) (rank y)).isLE = true ↔ rank x ≤ rank y :=
    Ordering.isLE_iff_ne_gt.trans compare_le_iff_le
  rw [hle, ← hrank]
  exact compare_iff (Option.any (·.isLE)) rfl

theorem lt_iff : x < y ↔ ¬x.isNaN ∧ ¬y.isNaN ∧ rank x < rank y := by
  have hlt : x < y ↔ x.toModel.unpack.lt y.toModel.unpack = true := decide_eq_true_iff
  have hrank : (some (compare (rank x) (rank y)) == some .lt) = true ↔ rank x < rank y := by
    rw [beq_iff_eq, Option.some_inj, compare_lt_iff_lt]
  rw [hlt, ← hrank]
  exact compare_iff (· == some .lt) rfl

theorem beq_iff : x == y ↔ ¬x.isNaN ∧ ¬y.isNaN ∧ rank x = rank y := by
  have hrank : (some (compare (rank x) (rank y)) == some .eq) = true ↔ rank x = rank y := by
    rw [beq_iff_eq, Option.some_inj, compare_eq_iff_eq]
  rw [← hrank]
  exact compare_iff (· == some .eq) rfl

theorem le_trans_float (hxy : x ≤ y) (hyz : y ≤ z) : x ≤ z := by
  obtain ⟨hx, -, hrank⟩ := le_iff.mp hxy
  obtain ⟨-, hz, hrank'⟩ := le_iff.mp hyz
  exact le_iff.mpr ⟨hx, hz, hrank.trans hrank'⟩

theorem le_refl_float (hx : ¬x.isNaN) : x ≤ x := le_iff.mpr ⟨hx, hx, le_rfl⟩

theorem beq_of_le_of_le (hxy : x ≤ y) (hyx : y ≤ x) : x == y := by
  obtain ⟨hx, hy, hrank⟩ := le_iff.mp hxy
  obtain ⟨-, -, hrank'⟩ := le_iff.mp hyx
  exact beq_iff.mpr ⟨hx, hy, le_antisymm hrank hrank'⟩

theorem le_of_lt_float (hxy : x < y) : x ≤ y := by
  obtain ⟨hx, hy, hrank⟩ := lt_iff.mp hxy
  exact le_iff.mpr ⟨hx, hy, hrank.le⟩

theorem le_of_not_lt (hx : ¬x.isNaN) (hy : ¬y.isNaN) (hlt : ¬x < y) : y ≤ x := by
  rw [lt_iff] at hlt
  exact le_iff.mpr ⟨hy, hx, not_lt.mp fun hrank => hlt ⟨hx, hy, hrank⟩⟩

theorem lt_of_not_le (hx : ¬x.isNaN) (hy : ¬y.isNaN) (hle : ¬y ≤ x) : x < y := by
  rw [le_iff] at hle
  exact lt_iff.mpr ⟨hx, hy, not_le.mp fun hrank => hle ⟨hy, hx, hrank⟩⟩

theorem not_isNaN_of_isFinite (hfinite : x.isFinite) : ¬x.isNaN := by
  obtain ⟨negative, magnitude, hcontent⟩ := isFinite_iff.mp hfinite
  rw [isNaN_iff, hcontent]
  exact Content.noConfusion

/-- A number but NaN is finite exactly if its rank lies between the infinities. -/
theorem isFinite_iff_rank (hnan : ¬x.isNaN) : x.isFinite ↔ |rank x| < overflow := by
  rw [isNaN_iff] at hnan
  rw [isFinite_iff]
  cases hcontent : Content.ofFloat x with
  | nan => exact absurd hcontent hnan
  | infinite negative =>
    have hrank : |rank x| = overflow := by
      rw [rank, hcontent]
      exact abs_signed negative overflow_pos.le
    rw [hrank]
    exact iff_of_false (fun ⟨_, _, hfinite⟩ => Content.noConfusion hfinite) (lt_irrefl _)
  | finite negative magnitude =>
    obtain ⟨hcanonical, hrange⟩ := Content.canonical_of_ofBits hcontent
    rw [rank_eq_of_content hcontent, abs_signed negative magnitude.value_nonneg]
    exact iff_of_true ⟨negative, magnitude, rfl⟩ (hcanonical.value_lt_overflow_iff.mpr hrange)

theorem rank_zero : rank 0 = 0 := Magnitude.value_zero (-1074)

theorem pos_of_rank (hx : ¬x.isNaN) (hpos : 0 < rank x) : 0 < x :=
  lt_iff.mpr ⟨by decide, hx, rank_zero.trans_lt hpos⟩

theorem nonneg_of_rank (hx : ¬x.isNaN) (hnonneg : 0 ≤ rank x) : 0 ≤ x :=
  le_iff.mpr ⟨by decide, hx, rank_zero.trans_le hnonneg⟩

theorem abs_rank_le (x : Float) : |rank x| ≤ overflow := by
  rw [rank]
  cases hcontent : Content.ofFloat x with
  | nan => exact abs_zero.trans_le overflow_pos.le
  | infinite negative => exact (abs_signed negative overflow_pos.le).le
  | finite negative magnitude =>
    obtain ⟨hcanonical, hrange⟩ := Content.canonical_of_ofBits hcontent
    rw [Content.rank, abs_signed negative magnitude.value_nonneg]
    exact (hcanonical.value_lt_overflow_iff.mpr hrange).le

theorem isFinite_of_le_of_le (hx : x.isFinite) (hz : z.isFinite) (hxy : x ≤ y) (hyz : y ≤ z) :
    y.isFinite := by
  obtain ⟨-, hy, hlow⟩ := le_iff.mp hxy
  obtain ⟨-, -, hhigh⟩ := le_iff.mp hyz
  rw [isFinite_iff_rank (not_isNaN_of_isFinite hx), abs_lt] at hx
  rw [isFinite_iff_rank (not_isNaN_of_isFinite hz), abs_lt] at hz
  rw [isFinite_iff_rank hy, abs_lt]
  exact ⟨hx.1.trans_le hlow, hhigh.trans_lt hz.2⟩

end Numbers

end Waveform.Decimal
