import Waveform.Proofs.Decimal.Bits

/-!
# Signs and special values under arithmetic

What the result of one operation tells of its operands, for all numbers with the infinities, NaN and
both zeros. A finite sum, product or quotient comes from finite operands, but for the divisor, which
can be infinite. A sum, a product of two numbers on the same side of zero, and a quotient by a
positive number do not lie below zero unless an operand does. Each fact is proved of unpacked
numbers, where an operation is a case split, and then carried through packing, which can turn a
number into an infinity but never back, and keeps its sign.
-/

namespace Waveform.Decimal

open Float.Model Float.Model.UnpackedFloat

/-! ### Packed results -/

/-- An unpacked number lies below zero. A zero with a sign does not. -/
def BelowZero : UnpackedFloat → Prop
  | .infinity sign => sign = .negative
  | .finite sign _ _ _ => sign = .negative
  | .zero _ => False
  | .notANumber => False

theorem exists_signOf (sign : Sign) : ∃ negative, sign = signOf negative := by
  cases sign with
  | positive => exact ⟨false, rfl⟩
  | negative => exact ⟨true, rfl⟩

theorem ofBits_packedInfinity (negative : Bool) :
    Content.ofBits (packedInfinity .binary64 (signOf negative)).toNat = .infinite negative := by
  cases negative <;> decide

theorem ofBits_packComponents {biased : BitVec 11} (fraction : BitVec 52)
    (hbiased : biased.toNat < 2047) (negative : Bool) :
    Content.ofBits (packComponents .binary64 (signOf negative) biased fraction).toNat =
      .finite negative (.ofFields fraction.toNat biased.toNat) := by
  obtain ⟨hsign, hnegative⟩ := toNat_signOf negative
  rw [toNat_packComponents, Content.ofBits_fields hsign hbiased fraction.isLt, hnegative]

/-- Packing keeps the sign of a finite number, and nothing else depends on it. -/
theorem ofBits_pack_finite {mantissa : Nat} (exponent : Int) (hpos : 0 < mantissa) :
    (∀ negative, Content.ofBits (UnpackedFloat.pack .binary64
        (.finite (signOf negative) mantissa exponent hpos)).toNat = .infinite negative) ∨
      ∃ magnitude, ∀ negative, Content.ofBits (UnpackedFloat.pack .binary64
        (.finite (signOf negative) mantissa exponent hpos)).toNat =
          .finite negative magnitude := by
  simp only [UnpackedFloat.pack]
  split
  · exact .inl ofBits_packedInfinity
  next hrange =>
  refine .inr ?_
  split
  · refine ⟨_, ofBits_packComponents _ ?_⟩
    rw [BitVec.toNat_ofNat]
    simp only [Nat.reducePow] at hrange ⊢
    omega
  · exact ⟨_, ofBits_packComponents _ (by decide)⟩

theorem unpack_ofModel_pack (result : UnpackedFloat) :
    (Float.ofModel (.pack result)).toModel.unpack =
      (Content.ofBits (UnpackedFloat.pack .binary64 result).toNat).unpacked :=
  unpack_eq _

/-- A packed number is finite only if it was finite before. -/
theorem isFinite_of_pack {result : UnpackedFloat}
    (hfinite : (Float.ofModel (.pack result)).isFinite) : result.isFinite := by
  cases result with
  | notANumber => exact absurd hfinite (by decide)
  | infinity sign => cases sign <;> exact absurd hfinite (by decide)
  | zero sign => rfl
  | finite sign mantissa exponent hpos => rfl

theorem BelowZero.eq_true {negative : Bool} (hbelow : BelowZero (.infinity (signOf negative))) :
    negative = true := by
  cases negative with
  | false => cases hbelow
  | true => rfl

theorem BelowZero.eq_true_of_magnitude {negative : Bool} {magnitude : Magnitude}
    (hbelow : BelowZero (magnitude.unpacked negative)) : negative = true := by
  rw [Magnitude.unpacked] at hbelow
  split at hbelow
  · cases hbelow
  · exact BelowZero.eq_true hbelow

theorem BelowZero.of_pack {result : UnpackedFloat}
    (hbelow : BelowZero (Float.ofModel (.pack result)).toModel.unpack) : BelowZero result := by
  rw [unpack_ofModel_pack] at hbelow
  cases result with
  | notANumber => exact hbelow
  | infinity sign => cases sign <;> exact hbelow
  | zero sign => cases sign <;> exact hbelow
  | finite sign mantissa exponent hpos =>
    obtain ⟨negative, rfl⟩ := exists_signOf sign
    obtain hcontent | ⟨magnitude, hcontent⟩ := ofBits_pack_finite exponent hpos
    · rw [hcontent] at hbelow
      exact congrArg signOf hbelow.eq_true
    · rw [hcontent] at hbelow
      exact congrArg signOf hbelow.eq_true_of_magnitude

/-! ### Comparison with zero -/

theorem lt_zero_iff {number : Float} : number < 0 ↔ BelowZero number.toModel.unpack := by
  have hlt : number < 0 ↔ number.toModel.unpack.lt (.zero .positive) := decide_eq_true_iff
  rw [hlt]
  cases number.toModel.unpack with
  | notANumber | zero => exact ⟨nofun, False.elim⟩
  | infinity sign | finite sign =>
    cases sign with
    | negative => exact iff_of_true rfl rfl
    | positive => exact ⟨nofun, nofun⟩

theorem not_lt_zero_of_le {number : Float} (hle : 0 ≤ number) : ¬number < 0 := by
  have hle : (UnpackedFloat.zero .positive).le number.toModel.unpack := of_decide_eq_true hle
  rw [lt_zero_iff]
  generalize number.toModel.unpack = unpacked at hle ⊢
  cases unpacked with
  | notANumber | zero => exact id
  | infinity | finite =>
    rintro rfl
    cases hle

/-! ### Rounded results -/

theorem BelowZero.of_roundWithAccuracy {sign : Sign} {mantissa : Nat} {exponent : Int}
    {accuracy : Accuracy}
    (hbelow : BelowZero (roundWithAccuracy .binary64 sign mantissa exponent accuracy)) :
    sign = .negative := by
  rw [roundWithAccuracy] at hbelow
  simp only at hbelow
  split at hbelow
  · cases hbelow
  · exact hbelow

theorem BelowZero.of_normalize {mantissa exponent : Int} {sign : Sign}
    (hbelow : BelowZero (UnpackedFloat.normalize .binary64 mantissa exponent sign)) :
    mantissa < 0 := by
  rw [UnpackedFloat.normalize] at hbelow
  split at hbelow
  · next hlt => exact Int.compare_eq_lt.mp hlt
  · cases hbelow
  · cases hbelow.of_roundWithAccuracy

/-! ### Unpacked operands -/

section Unpacked

variable {a b : UnpackedFloat}

theorem unpacked_isFinite_of_add (hfinite : (UnpackedFloat.add .binary64 a b).isFinite) :
    a.isFinite ∧ b.isFinite := by
  cases a with
  | notANumber => cases hfinite
  | infinity sign =>
    cases b with
    | infinity other => cases sign <;> cases other <;> cases hfinite
    | notANumber | zero | finite => cases hfinite
  | zero | finite =>
    cases b with
    | notANumber | infinity => cases hfinite
    | zero | finite => exact ⟨rfl, rfl⟩

theorem unpacked_isFinite_of_mul (hfinite : (UnpackedFloat.mul .binary64 a b).isFinite) :
    a.isFinite ∧ b.isFinite := by
  cases a with
  | notANumber => cases hfinite
  | infinity => cases b <;> cases hfinite
  | zero | finite =>
    cases b with
    | notANumber | infinity => cases hfinite
    | zero | finite => exact ⟨rfl, rfl⟩

theorem unpacked_isFinite_of_div (hfinite : (UnpackedFloat.div .binary64 a b).isFinite) :
    a.isFinite := by
  cases a with
  | notANumber => cases hfinite
  | infinity => cases b <;> cases hfinite
  | zero | finite => rfl

/-- A sum lies below zero only if an operand does. -/
theorem BelowZero.of_add (hbelow : BelowZero (UnpackedFloat.add .binary64 a b)) :
    BelowZero a ∨ BelowZero b := by
  cases a with
  | notANumber => cases hbelow
  | infinity sign =>
    cases b with
    | notANumber => cases hbelow
    | infinity other =>
      cases sign with
      | positive => cases other <;> cases hbelow
      | negative => exact .inl rfl
    | zero | finite => exact .inl hbelow
  | zero sign =>
    cases b with
    | notANumber => cases hbelow
    | zero other => cases sign <;> cases other <;> cases hbelow
    | infinity | finite => exact .inr hbelow
  | finite sign mantissa exponent hpos =>
    cases b with
    | notANumber => cases hbelow
    | infinity => exact .inr hbelow
    | zero => exact .inl hbelow
    | finite other mantissa' exponent' hpos' =>
      cases sign with
      | negative => exact .inl rfl
      | positive =>
        cases other with
        | negative => exact .inr rfl
        | positive =>
          have hsum := BelowZero.of_normalize hbelow
          exact absurd hsum (Int.not_lt.mpr
            (Int.add_nonneg (Int.natCast_nonneg _) (Int.natCast_nonneg _)))

theorem negative_of_mul {sign other : Sign} (hproduct : sign * other = .negative) :
    ¬(sign = .negative ↔ other = .negative) := by
  intro hsame
  cases sign with
  | negative =>
    obtain rfl := hsame.mp rfl
    cases hproduct
  | positive =>
    cases other with
    | negative => cases hsame.mpr rfl
    | positive => cases hproduct

theorem BelowZero.of_mul (hbelow : BelowZero (UnpackedFloat.mul .binary64 a b)) :
    ¬(BelowZero a ↔ BelowZero b) := by
  cases a with
  | notANumber => cases hbelow
  | zero => cases b <;> cases hbelow
  | infinity =>
    cases b with
    | notANumber | zero => cases hbelow
    | infinity | finite => exact negative_of_mul hbelow
  | finite =>
    cases b with
    | notANumber | zero => cases hbelow
    | infinity => exact negative_of_mul hbelow
    | finite => exact negative_of_mul hbelow.of_roundWithAccuracy

theorem BelowZero.of_div (hdivisor : (UnpackedFloat.zero .positive).lt b)
    (hbelow : BelowZero (UnpackedFloat.div .binary64 a b)) : BelowZero a := by
  cases b with
  | notANumber | zero => cases hdivisor
  | infinity => cases a <;> cases hbelow
  | finite other =>
    cases other with
    | negative => cases hdivisor
    | positive =>
      cases a with
      | notANumber | zero => cases hbelow
      | infinity sign => cases sign <;> exact hbelow
      | finite sign =>
        have hsign := hbelow.of_roundWithAccuracy
        cases sign <;> exact hsign

end Unpacked

/-! ### Numbers -/

section Numbers

variable {x y : Float}

theorem isFinite_of_add (hfinite : (x + y).isFinite) : x.isFinite ∧ y.isFinite :=
  unpacked_isFinite_of_add (isFinite_of_pack hfinite)

theorem isFinite_of_mul (hfinite : (x * y).isFinite) : x.isFinite ∧ y.isFinite :=
  unpacked_isFinite_of_mul (isFinite_of_pack hfinite)

theorem isFinite_of_div (hfinite : (x / y).isFinite) : x.isFinite :=
  unpacked_isFinite_of_div (isFinite_of_pack hfinite)

theorem not_lt_zero_add (hx : ¬x < 0) (hy : ¬y < 0) : ¬x + y < 0 := by
  rw [lt_zero_iff] at *
  exact fun hsum => (BelowZero.of_add hsum.of_pack).elim hx hy

theorem not_lt_zero_mul (hsame : x < 0 ↔ y < 0) : ¬x * y < 0 := by
  rw [lt_zero_iff, lt_zero_iff] at hsame
  rw [lt_zero_iff]
  exact fun hproduct => hproduct.of_pack.of_mul hsame

theorem not_lt_zero_div (hx : ¬x < 0) (hy : 0 < y) : ¬x / y < 0 := by
  rw [lt_zero_iff] at *
  exact fun hquotient => hx (hquotient.of_pack.of_div (of_decide_eq_true hy))

end Numbers

end Waveform.Decimal
