import Waveform.Decimal.Content
import Mathlib

/-!
# The bits of a number and its content

Arithmetic unpacks the bits of a number into a sign, a mantissa and an exponent, and packs its
results again. Decimal printing reads the same bits as a `Content`. Both readings agree, packing a
canonical magnitude within range gives a number of that content, and the content of a finite number
determines its bits, the sign of zero included.
-/

namespace Waveform.Decimal

open Float.Model Float.Model.UnpackedFloat

/-! ### Unpacked numbers -/

def signOf (negative : Bool) : Sign := if negative then .negative else .positive

/-- A finite number as arithmetic takes it apart. -/
def Magnitude.unpacked (magnitude : Magnitude) (negative : Bool) : UnpackedFloat :=
  if h : magnitude.mantissa = 0 then .zero (signOf negative)
  else .finite (signOf negative) magnitude.mantissa magnitude.exponent (Nat.pos_of_ne_zero h)

def Content.unpacked : Content → UnpackedFloat
  | .nan => .notANumber
  | .infinite negative => .infinity (signOf negative)
  | .finite negative magnitude => magnitude.unpacked negative

/-- One magnitude has one form with a full mantissa, unless the exponent is the least. -/
structure Magnitude.Canonical (magnitude : Magnitude) : Prop where
  mantissa_lt : magnitude.mantissa < 2 ^ 53
  le_exponent : leastExponent ≤ magnitude.exponent
  full : leastNormalMantissa ≤ magnitude.mantissa ∨ magnitude.exponent = leastExponent

theorem Magnitude.canonical_least {mantissa : Nat} (hlt : mantissa < 2 ^ 53) :
    Canonical ⟨mantissa, -1074⟩ :=
  ⟨hlt, Int.le_refl _, .inr rfl⟩

/-! ### Unpacking -/

theorem toNat_unpackMantissa (bits : BitVec 64) :
    (@unpackMantissa .binary64 bits).toNat = bits.toNat % 2 ^ 52 := by
  simp [unpackMantissa, BitVec.extractLsb, BitVec.extractLsb']

theorem toNat_unpackExponent (bits : BitVec 64) :
    (@unpackExponent .binary64 bits).toNat = bits.toNat / 2 ^ 52 % 2 ^ 11 := by
  simp [unpackExponent, BitVec.extractLsb, BitVec.extractLsb', Nat.shiftRight_eq_div_pow]

theorem toNat_unpackSign (bits : BitVec 64) :
    (@unpackSign .binary64 bits).toNat = bits.toNat / 2 ^ 63 % 2 := by
  simp [unpackSign, BitVec.extractLsb, BitVec.extractLsb', Nat.shiftRight_eq_div_pow]

theorem ofBitVec_unpackSign (bits : BitVec 64) :
    Sign.ofBitVec (@unpackSign .binary64 bits) = signOf (bits.toNat / 2 ^ 63 % 2 == 1) := by
  have hsign := toNat_unpackSign bits
  generalize @unpackSign .binary64 bits = sign at hsign
  rw [← hsign]
  rcases sign.eq_zero_or_eq_one with rfl | rfl <;> rfl

theorem Content.ofBits_of_eq {bits : Nat} (hbiased : bits / 2 ^ 52 % 2 ^ 11 = 2047) :
    ofBits bits = if bits % 2 ^ 52 = 0 then .infinite (bits / 2 ^ 63 % 2 == 1) else .nan :=
  if_pos hbiased

theorem Content.ofBits_of_ne {bits : Nat} (hbiased : bits / 2 ^ 52 % 2 ^ 11 ≠ 2047) :
    ofBits bits = .finite (bits / 2 ^ 63 % 2 == 1)
      (.ofFields (bits % 2 ^ 52) (bits / 2 ^ 52 % 2 ^ 11)) :=
  if_neg hbiased

theorem Magnitude.unpacked_of_pos {mantissa : Nat} {exponent : Int} (negative : Bool)
    (hpos : 0 < mantissa) :
    unpacked ⟨mantissa, exponent⟩ negative = .finite (signOf negative) mantissa exponent hpos :=
  dif_neg (Nat.ne_of_gt hpos)

theorem unpackExponent_eq_iff {bits : BitVec 64} {exponent : BitVec 11} :
    @unpackExponent .binary64 bits = exponent ↔
      bits.toNat / 2 ^ 52 % 2 ^ 11 = exponent.toNat := by
  rw [← BitVec.toNat_inj, toNat_unpackExponent]

theorem unpackMantissa_eq_zero_iff {bits : BitVec 64} :
    @unpackMantissa .binary64 bits = 0#_ ↔ bits.toNat % 2 ^ 52 = 0 := by
  rw [← BitVec.toNat_inj, toNat_unpackMantissa]
  rfl

/-- Arithmetic and decimal printing read the same content from the bits of a number. -/
theorem unpack_eq (bits : BitVec 64) :
    UnpackedFloat.unpack .binary64 bits = (Content.ofBits bits.toNat).unpacked := by
  rw [UnpackedFloat.unpack]
  simp only [ofBitVec_unpackSign]
  by_cases hall : bits.toNat / 2 ^ 52 % 2 ^ 11 = 2047
  · rw [Content.ofBits_of_eq hall, if_pos (unpackExponent_eq_iff.mpr hall)]
    by_cases hinfinite : bits.toNat % 2 ^ 52 = 0
    · rw [if_pos hinfinite, if_pos (unpackMantissa_eq_zero_iff.mpr hinfinite)]
      rfl
    · rw [if_neg hinfinite, if_neg (hinfinite ∘ unpackMantissa_eq_zero_iff.mp)]
      rfl
  rw [Content.ofBits_of_ne hall, if_neg (hall ∘ unpackExponent_eq_iff.mp)]
  show _ = (Magnitude.ofFields _ _).unpacked _
  rw [Magnitude.ofFields]
  by_cases hnone : bits.toNat / 2 ^ 52 % 2 ^ 11 = 0
  · rw [if_pos hnone, if_pos (unpackExponent_eq_iff.mpr hnone)]
    by_cases hnull : bits.toNat % 2 ^ 52 = 0
    · rw [dif_pos (unpackMantissa_eq_zero_iff.mpr hnull), Magnitude.unpacked, dif_pos hnull]
    · rw [dif_neg (hnull ∘ unpackMantissa_eq_zero_iff.mp),
        Magnitude.unpacked_of_pos _ (Nat.pos_of_ne_zero hnull)]
      simp only [toNat_unpackMantissa, toNat_unpackExponent, hnone]
      rfl
  · have hpos : 0 < Magnitude.leastNormalMantissa + bits.toNat % 2 ^ 52 :=
      Nat.add_pos_left (by decide) _
    rw [if_neg hnone, if_neg (hnone ∘ unpackExponent_eq_iff.mp),
      Magnitude.unpacked_of_pos _ hpos]
    have hfull : (1#1 ++ @unpackMantissa .binary64 bits).toNat =
        Magnitude.leastNormalMantissa + bits.toNat % 2 ^ 52 := by
      rw [BitVec.toNat_append, ← Nat.shiftLeft_add_eq_or_of_lt (BitVec.isLt _),
        toNat_unpackMantissa]
      rfl
    simp only [hfull, toNat_unpackExponent]
    rfl

/-! ### Packing -/

theorem toNat_packComponents (sign : Sign) (exponent : BitVec 11) (mantissa : BitVec 52) :
    (packComponents .binary64 sign exponent mantissa).toNat =
      sign.toBitVec.toNat * 2 ^ 63 + exponent.toNat * 2 ^ 52 + mantissa.toNat := by
  have hmantissa : mantissa.toNat < 2 ^ 52 := mantissa.isLt
  have hexponent : exponent.toNat < 2 ^ 11 := exponent.isLt
  rw [packComponents]
  rw [BitVec.toNat_append, BitVec.toNat_append, ← Nat.shiftLeft_add_eq_or_of_lt hmantissa,
    ← Nat.shiftLeft_add_eq_or_of_lt hexponent, Nat.shiftLeft_eq, Nat.shiftLeft_eq]
  omega

theorem Content.ofBits_fields {negative biased fraction : Nat} (hnegative : negative < 2)
    (hbiased : biased < 2047) (hfraction : fraction < 2 ^ 52) :
    ofBits (negative * 2 ^ 63 + biased * 2 ^ 52 + fraction) =
      .finite (negative == 1) (.ofFields fraction biased) := by
  have hlow : (negative * 2 ^ 63 + biased * 2 ^ 52 + fraction) % 2 ^ 52 = fraction := by omega
  have hmiddle : (negative * 2 ^ 63 + biased * 2 ^ 52 + fraction) / 2 ^ 52 % 2 ^ 11 = biased := by
    omega
  have hhigh : (negative * 2 ^ 63 + biased * 2 ^ 52 + fraction) / 2 ^ 63 % 2 = negative := by omega
  rw [ofBits_of_ne (by omega), hlow, hmiddle, hhigh]

theorem toNat_signOf (negative : Bool) :
    (signOf negative).toBitVec.toNat < 2 ∧ ((signOf negative).toBitVec.toNat == 1) = negative := by
  cases negative <;> decide

theorem Magnitude.log2_eq_iff {mantissa : Nat} (hpos : 0 < mantissa) (hlt : mantissa < 2 ^ 53) :
    mantissa.log2 + 1 = Format.binary64.mantissaBits ↔ leastNormalMantissa ≤ mantissa := by
  show mantissa.log2 + 1 = 53 ↔ 2 ^ 52 ≤ mantissa
  have hbelow : mantissa.log2 < 53 := (Nat.log2_lt hpos.ne').mpr hlt
  rw [← Nat.le_log2 hpos.ne']
  omega

/-- A canonical magnitude within range survives packing. -/
theorem Magnitude.Canonical.ofBits_pack {magnitude : Magnitude} (hcanonical : magnitude.Canonical)
    (hrange : magnitude.exponent ≤ 971) (negative : Bool) :
    Content.ofBits (UnpackedFloat.pack .binary64 (magnitude.unpacked negative)).toNat =
      .finite negative magnitude := by
  obtain ⟨mantissa, exponent⟩ := magnitude
  obtain ⟨hlt, hexponent, hfull⟩ := hcanonical
  obtain ⟨hsign, hnegative⟩ := toNat_signOf negative
  simp only [Magnitude.leastExponent] at hlt hexponent hfull hrange
  by_cases hzero : mantissa = 0
  · subst hzero
    obtain rfl : exponent = -1074 := hfull.resolve_left (by decide)
    show Content.ofBits (packComponents .binary64 (signOf negative) 0 0).toNat = _
    rw [toNat_packComponents, Content.ofBits_fields hsign (by decide) (by decide), hnegative]
    rfl
  have hpos := Nat.pos_of_ne_zero hzero
  rw [unpacked_of_pos negative hpos]
  rw [UnpackedFloat.pack]
  have hbias : (exponent + (Format.binary64.exponentBias : Int) + ((52 : Nat) : Int)).toNat =
      (exponent + 1075).toNat := by
    rw [show (Format.binary64.exponentBias : Int) = 1023 from rfl]
    omega
  simp only [hbias]
  rw [if_neg (by simp only [Nat.reducePow]; omega)]
  by_cases hnormal : leastNormalMantissa ≤ mantissa
  · have hleast : leastNormalMantissa = 2 ^ 52 := rfl
    have hfraction : (BitVec.ofNat 52 mantissa).toNat = mantissa - 2 ^ 52 := by
      rw [BitVec.toNat_ofNat]
      omega
    have hbiased : (BitVec.ofNat 11 (exponent + 1075).toNat).toNat = (exponent + 1075).toNat := by
      rw [BitVec.toNat_ofNat]
      omega
    rw [if_pos ((log2_eq_iff hpos hlt).mpr hnormal), toNat_packComponents, hfraction, hbiased,
      Content.ofBits_fields hsign (by omega) (by omega), hnegative, ofFields, if_neg (by omega)]
    have hwhole : leastNormalMantissa + (mantissa - 2 ^ 52) = mantissa := by omega
    have hunbiased : ((exponent + 1075).toNat : Int) - 1075 = exponent := by omega
    rw [hwhole, hunbiased]
  · obtain rfl : exponent = -1074 := hfull.resolve_left hnormal
    have hleast : leastNormalMantissa = 2 ^ 52 := rfl
    have hfraction : (BitVec.ofNat 52 mantissa).toNat = mantissa := by
      rw [BitVec.toNat_ofNat]
      omega
    rw [if_neg (hnormal ∘ (log2_eq_iff hpos hlt).mp), toNat_packComponents, hfraction,
      Content.ofBits_fields hsign (by decide) (by omega), hnegative]
    rfl

/-! ### Numbers -/

def pack (magnitude : Magnitude) (negative : Bool) : Float :=
  .ofModel (.pack (magnitude.unpacked negative))

theorem unpack_toModel (number : Float) :
    number.toModel.unpack = (Content.ofFloat number).unpacked :=
  unpack_eq number.toBits.toBitVec

theorem Magnitude.Canonical.ofFloat_pack {magnitude : Magnitude} (hcanonical : magnitude.Canonical)
    (hrange : magnitude.exponent ≤ 971) (negative : Bool) :
    Content.ofFloat (pack magnitude negative) = .finite negative magnitude :=
  hcanonical.ofBits_pack hrange negative

theorem Magnitude.Canonical.pack_of_overflow {magnitude : Magnitude}
    (hcanonical : magnitude.Canonical) (hrange : 971 < magnitude.exponent) (negative : Bool) :
    pack magnitude negative = .ofModel (.pack (.infinity (signOf negative))) := by
  have hleast : leastExponent = -1074 := rfl
  have hfull : 2 ^ 52 ≤ magnitude.mantissa := hcanonical.full.resolve_right (by omega)
  have hpos : 0 < magnitude.mantissa := by omega
  have hpack : UnpackedFloat.pack .binary64 (magnitude.unpacked negative) =
      packedInfinity .binary64 (signOf negative) := by
    rw [Magnitude.unpacked_of_pos negative hpos, UnpackedFloat.pack]
    refine if_pos ?_
    rw [show (Format.binary64.exponentBias : Int) = 1023 from rfl]
    show 2 ^ 11 ≤ (magnitude.exponent + 1023 + 52).toNat + 1
    omega
  have hinfinity : UnpackedFloat.pack .binary64 (.infinity (signOf negative)) =
      packedInfinity .binary64 (signOf negative) := rfl
  rw [pack, Float.Model.pack, Float.Model.pack]
  congr 2
  rw [hpack, hinfinity]

theorem canonical_ofFields {biased fraction : Nat} (hfraction : fraction < 2 ^ 52) :
    (Magnitude.ofFields fraction biased).Canonical := by
  rw [Magnitude.ofFields]
  have hleast : Magnitude.leastNormalMantissa = 2 ^ 52 := rfl
  split
  · exact ⟨show fraction < 2 ^ 53 by omega, Int.le_refl _, .inr rfl⟩
  · refine ⟨show _ + fraction < 2 ^ 53 by omega, ?_, .inl (Nat.le_add_right _ _)⟩
    show (-1074 : Int) ≤ biased - 1075
    omega

theorem Content.ofBits_eq_finite (bits : Nat) {negative : Bool} {magnitude : Magnitude} :
    ofBits bits = .finite negative magnitude ↔ bits / 2 ^ 52 % 2 ^ 11 ≠ 2047 ∧
      (bits / 2 ^ 63 % 2 == 1) = negative ∧
      .ofFields (bits % 2 ^ 52) (bits / 2 ^ 52 % 2 ^ 11) = magnitude := by
  by_cases hall : bits / 2 ^ 52 % 2 ^ 11 = 2047
  · rw [ofBits_of_eq hall]
    refine ⟨fun hcontent => ?_, fun hfields => absurd hall hfields.1⟩
    split at hcontent <;> cases hcontent
  · rw [ofBits_of_ne hall, Content.finite.injEq]
    exact (and_iff_right hall).symm

/-- The magnitude of a finite number is canonical and within range. -/
theorem Content.canonical_of_ofBits {bits : Nat} {negative : Bool} {magnitude : Magnitude}
    (hcontent : ofBits bits = .finite negative magnitude) :
    magnitude.Canonical ∧ magnitude.exponent ≤ 971 := by
  obtain ⟨hall, -, rfl⟩ := (ofBits_eq_finite bits).mp hcontent
  refine ⟨canonical_ofFields (Nat.mod_lt _ (by decide)), ?_⟩
  rw [Magnitude.ofFields]
  split
  · show (-1074 : Int) ≤ 971
    decide
  · show ((bits / 2 ^ 52 % 2 ^ 11 : Nat) : Int) - 1075 ≤ 971
    omega

theorem ofFields_injective {biased fraction biased' fraction' : Nat} (hfraction : fraction < 2 ^ 52)
    (hfraction' : fraction' < 2 ^ 52)
    (hfields : Magnitude.ofFields fraction biased = .ofFields fraction' biased') :
    fraction = fraction' ∧ biased = biased' := by
  have hleast : Magnitude.leastNormalMantissa = 2 ^ 52 := rfl
  have hexponent : Magnitude.leastExponent = -1074 := rfl
  unfold Magnitude.ofFields at hfields
  split at hfields <;> split at hfields <;> rw [Magnitude.mk.injEq] at hfields <;> omega

theorem Content.ofFloat_injective {number other : Float} {negative : Bool} {magnitude : Magnitude}
    (hnumber : ofFloat number = .finite negative magnitude)
    (hother : ofFloat other = .finite negative magnitude) : number = other := by
  obtain ⟨⟨bits, hvalid⟩⟩ := number
  obtain ⟨⟨bits', hvalid'⟩⟩ := other
  obtain ⟨-, hsign, hmagnitude⟩ := (ofBits_eq_finite bits.toNat).mp hnumber
  obtain ⟨-, hsign', hmagnitude'⟩ := (ofBits_eq_finite bits'.toNat).mp hother
  obtain ⟨hlow, hmiddle⟩ := ofFields_injective (Nat.mod_lt _ (by decide))
    (Nat.mod_lt _ (by decide)) (hmagnitude.trans hmagnitude'.symm)
  have hhigh : bits.toNat / 2 ^ 63 % 2 = bits'.toNat / 2 ^ 63 % 2 := by
    have hsame := hsign.trans hsign'.symm
    rw [Bool.eq_iff_iff, beq_iff_eq, beq_iff_eq] at hsame
    omega
  have hbits : bits = bits' := by
    have := bits.toNat_lt
    have := bits'.toNat_lt
    apply UInt64.toNat_inj.mp
    omega
  subst hbits
  rfl

theorem isFinite_iff {number : Float} :
    number.isFinite ↔
      ∃ negative magnitude, Content.ofFloat number = .finite negative magnitude := by
  show number.toModel.unpack.isFinite = true ↔ _
  rw [unpack_toModel]
  cases Content.ofFloat number with
  | nan => simp [Content.unpacked, UnpackedFloat.isFinite]
  | infinite negative => simp [Content.unpacked, UnpackedFloat.isFinite]
  | finite negative magnitude =>
      simp only [Content.unpacked, Magnitude.unpacked]
      split <;> simp [UnpackedFloat.isFinite]

theorem Content.ofFloat_neg {number : Float} {negative : Bool} {magnitude : Magnitude}
    (hcontent : ofFloat number = .finite negative magnitude) :
    ofFloat (-number) = .finite (!negative) magnitude := by
  obtain ⟨hcanonical, hrange⟩ := canonical_of_ofBits hcontent
  have hneg : (magnitude.unpacked negative).neg = magnitude.unpacked (!negative) := by
    unfold Magnitude.unpacked
    cases negative <;> split <;> rfl
  have hpack : -number = pack magnitude !negative := by
    show Float.ofModel (.pack number.toModel.unpack.neg) = _
    rw [unpack_toModel, hcontent]
    exact congrArg (fun unpacked => Float.ofModel (.pack unpacked)) hneg
  rw [hpack]
  exact hcanonical.ofFloat_pack hrange _

end Waveform.Decimal
