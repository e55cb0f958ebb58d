import Waveform.Proofs.Decimal.Arithmetic
import Waveform.Proofs.Decimal.Signs

/-!
# Identities of arithmetic

Arithmetic treats both signs alike: packing and multiplication commute with negation, and to
subtract is to add the negative. So a term with a negative factor is added exactly as the term with
the positive factor is subtracted, whatever the numbers are: infinities, NaN and both zeros
included. Adding to zero keeps a number but for the sign of a zero, and a further addition shows
that sign in the sign of a zero at most. Main statements: `sub_neg_mul`, `add_neg_one_mul`,
`SameNumber.zero_add` and `SameNumber.add_right`.
-/

namespace Waveform.Decimal

open Float.Model Float.Model.UnpackedFloat

/-! ### Negation -/

/-- What is left of a result after it has been packed. -/
def repacked (result : UnpackedFloat) : UnpackedFloat :=
  (Float.ofModel (.pack result)).toModel.unpack

theorem signOf_not (negative : Bool) : signOf (!negative) = -signOf negative := by
  cases negative <;> rfl

theorem Magnitude.unpacked_not (magnitude : Magnitude) (negative : Bool) :
    magnitude.unpacked (!negative) = (magnitude.unpacked negative).neg := by
  rw [unpacked, unpacked, signOf_not]
  split <;> rfl

theorem repacked_neg (result : UnpackedFloat) : repacked result.neg = (repacked result).neg := by
  rw [repacked, repacked, unpack_ofModel_pack, unpack_ofModel_pack]
  cases result with
  | notANumber => rfl
  | infinity sign => cases sign <;> rfl
  | zero sign => cases sign <;> rfl
  | finite sign mantissa exponent hpos =>
    obtain ⟨negative, rfl⟩ := exists_signOf sign
    rw [UnpackedFloat.neg, ← signOf_not]
    obtain hcontent | ⟨magnitude, hcontent⟩ := ofBits_pack_finite exponent hpos
    · rw [hcontent, hcontent]
      exact congrArg UnpackedFloat.infinity (signOf_not negative)
    · rw [hcontent, hcontent]
      exact magnitude.unpacked_not negative

theorem repacked_unpack (number : Float) :
    repacked number.toModel.unpack = number.toModel.unpack := by
  rw [repacked, unpack_ofModel_pack, unpack_toModel]
  cases hcontent : Content.ofFloat number with
  | nan => rfl
  | infinite negative => cases negative <;> rfl
  | finite negative magnitude =>
    obtain ⟨hcanonical, hrange⟩ := Content.canonical_of_ofBits hcontent
    exact congrArg Content.unpacked (hcanonical.ofBits_pack hrange negative)

theorem unpack_neg (number : Float) : (-number).toModel.unpack = number.toModel.unpack.neg := by
  show repacked number.toModel.unpack.neg = _
  rw [repacked_neg, repacked_unpack]

/-! ### Unpacked operands -/

section Unpacked

variable (a b : UnpackedFloat)

theorem sign_neg_neg (sign : Sign) : - -sign = sign := by
  cases sign <;> rfl

theorem unpacked_neg_neg : a.neg.neg = a := by
  cases a with
  | notANumber => rfl
  | infinity sign => exact congrArg UnpackedFloat.infinity (sign_neg_neg sign)
  | zero sign => exact congrArg UnpackedFloat.zero (sign_neg_neg sign)
  | finite sign mantissa exponent hpos =>
    rw [UnpackedFloat.neg, UnpackedFloat.neg, sign_neg_neg]

theorem apply_add_neg (sign other : Sign) (m n : Int) :
    sign.apply m + (-other).apply n = sign.apply m - other.apply n := by
  cases other with
  | positive => exact Int.add_neg_eq_sub
  | negative => exact (Int.sub_neg ..).symm

theorem unpacked_add_neg :
    UnpackedFloat.add .binary64 a b.neg = UnpackedFloat.sub .binary64 a b := by
  cases b with
  | notANumber | infinity | zero => cases a <;> rfl
  | finite sign mantissa exponent hpos =>
    cases a with
    | finite sign' mantissa' exponent' hpos' =>
      exact congrArg (fun sum => UnpackedFloat.normalize .binary64 sum (min exponent' exponent)
        .positive) (apply_add_neg ..)
    | _ => rfl

theorem sign_neg_mul (sign other : Sign) : -sign * other = -(sign * other) := by
  cases sign <;> cases other <;> rfl

theorem roundWithAccuracy_neg (sign : Sign) (mantissa : Nat) (exponent : Int)
    (accuracy : Accuracy) :
    roundWithAccuracy .binary64 (-sign) mantissa exponent accuracy =
      (roundWithAccuracy .binary64 sign mantissa exponent accuracy).neg := by
  rw [roundWithAccuracy, roundWithAccuracy]
  simp only
  split <;> rfl

theorem unpacked_neg_mul :
    UnpackedFloat.mul .binary64 a.neg b = (UnpackedFloat.mul .binary64 a b).neg := by
  cases a with
  | notANumber => rfl
  | infinity sign =>
    cases b with
    | notANumber | zero => rfl
    | infinity | finite => exact congrArg UnpackedFloat.infinity (sign_neg_mul ..)
  | zero sign =>
    cases b with
    | notANumber | infinity => rfl
    | zero | finite => exact congrArg UnpackedFloat.zero (sign_neg_mul ..)
  | finite sign mantissa exponent hpos =>
    cases b with
    | notANumber => rfl
    | infinity => exact congrArg UnpackedFloat.infinity (sign_neg_mul ..)
    | zero => exact congrArg UnpackedFloat.zero (sign_neg_mul ..)
    | finite other mantissa' exponent' hpos' =>
      show roundWithAccuracy .binary64 (-sign * other) _ _ _ = _
      rw [sign_neg_mul, roundWithAccuracy_neg]
      rfl

end Unpacked

/-! ### Factors of one -/

theorem unpack_one : (1 : Float).toModel.unpack = .finite .positive (2 ^ 52) (-52) (by decide) :=
  rfl

theorem Magnitude.Canonical.one_mul {magnitude : Magnitude} (hcanonical : magnitude.Canonical)
    (hpos : 0 < magnitude.mantissa) :
    UnpackedFloat.mul .binary64 (1 : Float).toModel.unpack (magnitude.unpacked false) =
      magnitude.unpacked false := by
  have hvalue : ((2 ^ 52 : ℕ) : ℚ) * 2 ^ (-52 : ℤ) *
      (magnitude.mantissa * 2 ^ magnitude.exponent) = magnitude.value := by
    rw [Magnitude.value]
    norm_num
  have hrounds : RoundsTo (.mul .binary64 (1 : Float).toModel.unpack (magnitude.unpacked false))
      magnitude.value := by
    rw [unpack_one, Magnitude.unpacked_of_pos false hpos, ← hvalue]
    exact mul_roundsTo (Nat.two_pow_pos 52) hpos (.inl (Nat.le_mul_of_pos_right _ hpos))
  exact hrounds.eq hcanonical magnitude.captures_value

theorem unpacked_one_mul (number : Float) :
    UnpackedFloat.mul .binary64 (1 : Float).toModel.unpack number.toModel.unpack =
      number.toModel.unpack := by
  rw [unpack_toModel number]
  cases hcontent : Content.ofFloat number with
  | nan => rfl
  | infinite negative => cases negative <;> rfl
  | finite negative magnitude =>
    obtain ⟨hcanonical, -⟩ := Content.canonical_of_ofBits hcontent
    show UnpackedFloat.mul .binary64 _ (magnitude.unpacked negative) = magnitude.unpacked negative
    by_cases hzero : magnitude.mantissa = 0
    · rw [Magnitude.unpacked, dif_pos hzero]
      cases negative <;> rfl
    · have hpos := Nat.pos_of_ne_zero hzero
      have hpositive := hcanonical.one_mul hpos
      cases negative with
      | false => exact hpositive
      | true =>
        rw [Magnitude.unpacked_of_pos _ hpos] at hpositive ⊢
        exact (roundWithAccuracy_neg .positive ..).trans (congrArg UnpackedFloat.neg hpositive)

/-! ### Numbers -/

section Numbers

variable (a v b : Float)

theorem unpack_neg_mul : (-v * b).toModel.unpack = (v * b).toModel.unpack.neg := by
  show repacked (.mul .binary64 (-v).toModel.unpack b.toModel.unpack) = (repacked _).neg
  rw [unpack_neg, unpacked_neg_mul, repacked_neg]

/-- To subtract a term with a negative factor is to add it with the positive one. -/
theorem sub_neg_mul : a - -v * b = a + v * b := by
  show Float.ofModel (.pack (.sub .binary64 a.toModel.unpack (-v * b).toModel.unpack)) = _
  rw [unpack_neg_mul, ← unpacked_add_neg, unpacked_neg_neg]
  rfl

/-- To add the product with minus one is to subtract. -/
theorem add_neg_one_mul : a + -1 * b = a - b := by
  show Float.ofModel (.pack (.add .binary64 a.toModel.unpack (-1 * b).toModel.unpack)) = _
  have hproduct : (1 * b).toModel.unpack = b.toModel.unpack := by
    show repacked (.mul .binary64 (1 : Float).toModel.unpack b.toModel.unpack) = _
    rw [unpacked_one_mul, repacked_unpack]
  rw [unpack_neg_mul, hproduct, unpacked_add_neg]
  rfl

end Numbers

/-! ### The sign of zero -/

/-- The same number: NaN is the same as NaN, and a zero as the zero of the other sign. -/
def SameNumber (x y : Float) : Prop := x == y ∨ x.isNaN ∧ y.isNaN

/-- Equal but for the sign of a zero. -/
inductive SameUnpacked : UnpackedFloat → UnpackedFloat → Prop
  | refl (a : UnpackedFloat) : SameUnpacked a a
  | zero (sign other : Sign) : SameUnpacked (.zero sign) (.zero other)

section SameUnpacked

variable {a b : UnpackedFloat}

theorem beq_finite (sign : Sign) (mantissa mantissa' : Nat) (exponent exponent' : Int)
    (hpos : 0 < mantissa) (hpos' : 0 < mantissa') :
    (UnpackedFloat.finite sign mantissa exponent hpos).beq
      (.finite sign mantissa' exponent' hpos') = true ↔
        mantissa = mantissa' ∧ exponent = exponent' := by
  cases sign <;>
    simp [UnpackedFloat.beq, UnpackedFloat.compare, Ordering.then_eq_eq, and_comm]

theorem SameUnpacked.of_beq (hequal : a.beq b = true) : SameUnpacked a b := by
  cases a with
  | notANumber => cases hequal
  | infinity sign =>
    cases b with
    | infinity other => cases sign <;> cases other <;> first | exact .refl _ | cases hequal
    | _ => cases sign <;> cases hequal
  | zero sign =>
    cases b with
    | notANumber => cases hequal
    | infinity other | finite other => cases other <;> cases hequal
    | zero other => exact .zero sign other
  | finite sign mantissa exponent hpos =>
    cases b with
    | notANumber => cases hequal
    | infinity other => cases sign <;> cases other <;> cases hequal
    | zero other => cases sign <;> cases hequal
    | finite other mantissa' exponent' hpos' =>
      obtain rfl : sign = other := by
        cases sign <;> cases other <;> first | rfl | cases hequal
      obtain ⟨rfl, rfl⟩ := (beq_finite ..).1 hequal
      exact .refl _

theorem sameUnpacked_iff : SameUnpacked a b ↔ a.beq b = true ∨ a.isNaN ∧ b.isNaN := by
  constructor
  · rintro (_ | ⟨sign, other⟩)
    · cases a with
      | notANumber => exact .inr ⟨rfl, rfl⟩
      | infinity sign => cases sign <;> exact .inl rfl
      | zero sign => exact .inl rfl
      | finite => exact .inl ((beq_finite ..).2 ⟨rfl, rfl⟩)
    · exact .inl rfl
  · rintro (hequal | ⟨hnan, hnan'⟩)
    · exact .of_beq hequal
    · cases a <;> cases hnan
      cases b <;> cases hnan'
      exact .refl _

theorem SameUnpacked.add (h : SameUnpacked a b) (c : UnpackedFloat) :
    SameUnpacked (.add .binary64 a c) (.add .binary64 b c) := by
  cases h with
  | refl => exact .refl _
  | zero sign other =>
    cases c with
    | notANumber | infinity | finite => exact .refl _
    | zero last =>
      have hzero (sign : Sign) : ∃ total, UnpackedFloat.add .binary64 (.zero sign) (.zero last) =
          .zero total := by
        cases sign <;> cases last <;> exact ⟨_, rfl⟩
      obtain ⟨total, htotal⟩ := hzero sign
      obtain ⟨total', htotal'⟩ := hzero other
      rw [htotal, htotal']
      exact .zero total total'

theorem SameUnpacked.repacked (h : SameUnpacked a b) :
    SameUnpacked (repacked a) (repacked b) := by
  cases h with
  | refl => exact .refl _
  | zero sign other => cases sign <;> cases other <;> exact .zero _ _

end SameUnpacked

section SameNumber

variable {x y : Float}

theorem sameNumber_iff : SameNumber x y ↔ SameUnpacked x.toModel.unpack y.toModel.unpack :=
  sameUnpacked_iff.symm

@[simp] theorem SameNumber.refl (x : Float) : SameNumber x x :=
  sameNumber_iff.2 (.refl _)

theorem SameNumber.add_right (h : SameNumber x y) (z : Float) : SameNumber (x + z) (y + z) :=
  sameNumber_iff.2 ((sameNumber_iff.1 h).add z.toModel.unpack).repacked

theorem SameNumber.foldl_add (h : SameNumber x y) (terms : List Float) :
    SameNumber (terms.foldl (· + ·) x) (terms.foldl (· + ·) y) := by
  induction terms generalizing x y with
  | nil => exact h
  | cons term terms ih => exact ih (h.add_right term)

/-- Zero plus a number is the number. -/
theorem SameNumber.zero_add (x : Float) : SameNumber (0 + x) x := by
  have hsum : SameUnpacked (.add .binary64 (0 : Float).toModel.unpack x.toModel.unpack)
      x.toModel.unpack := by
    have hzero : (0 : Float).toModel.unpack = .zero .positive := rfl
    rw [hzero]
    cases x.toModel.unpack with
    | zero sign => cases sign <;> exact .zero _ _
    | _ => exact .refl _
  have hpacked := hsum.repacked
  rw [repacked_unpack] at hpacked
  exact sameNumber_iff.2 hpacked

end SameNumber

end Waveform.Decimal
