import Waveform.Energy.Display
import Waveform.Proofs.Decimal.Digits
import Waveform.Proofs.Decimal.Monotone
import Waveform.Proofs.Decimal.Notation

/-!
# What shown energies say

The text of a finite number denotes an exact number, and this is the nearest one on a decimal grid:
that of the thousandths for magnitudes from a thousandth to a thousand, and otherwise the grid of
the fourth significant digit. Both bounds of that range separate the grids, so the order of numbers
is kept across them. The lower bound is not a thousandth but the binary64 number next to it, and no
other number lies between the two. Main statement: `display_faithful`.
-/

namespace Waveform.Energy

open Decimal

/-! ### The bounds of the range without exponents -/

theorem isRounding_leastPlain : IsRounding leastPlain (1 / 1000) := by
  have hcontent : Content.ofFloat leastPlain = .finite false ⟨4611686018427388, -62⟩ := by decide
  obtain ⟨hcanonical, -⟩ := Content.canonical_of_ofBits hcontent
  have hcaptures : (⟨4611686018427388, -62⟩ : Magnitude).Captures (Numeral.value ⟨1, -3⟩) :=
    Magnitude.captures_of_readsBack (by decide)
  have hvalue : Numeral.value ⟨1, -3⟩ = 1 / 1000 := by norm_num [Numeral.value]
  rw [hvalue] at hcaptures
  exact ⟨false, _, hcanonical, hcaptures, eq_pack_of_content hcontent⟩

theorem thousandth_le_rank_leastPlain : 1 / 1000 ≤ rank leastPlain := by
  have hcontent : Content.ofFloat leastPlain = .finite false ⟨4611686018427388, -62⟩ := by decide
  rw [rank_eq_of_content hcontent]
  norm_num [Magnitude.value]

theorem rank_greatestPlain : rank greatestPlain = 1000 := by
  have hcontent : Content.ofFloat greatestPlain = .finite false ⟨8796093022208000, -43⟩ := by decide
  rw [rank_eq_of_content hcontent]
  norm_num [Magnitude.value]

variable {number x y : Float} {negative negative' : Bool} {magnitude other : Magnitude}

/-- No finite number lies between a thousandth and the binary64 number next to it. -/
theorem leastPlain_le_iff (hfinite : number.isFinite) :
    leastPlain ≤ number ↔ 1 / 1000 ≤ rank number := by
  constructor
  · intro hle
    obtain ⟨-, -, hrank⟩ := le_iff.mp hle
    exact thousandth_le_rank_leastPlain.trans hrank
  · intro hle
    exact isRounding_leastPlain.le (isRounding_rank hfinite) hle

theorem le_greatestPlain_iff (hfinite : number.isFinite) :
    number ≤ greatestPlain ↔ rank number ≤ 1000 := by
  rw [le_iff, rank_greatestPlain]
  have hnumber := not_isNaN_of_isFinite hfinite
  have hgreatest : ¬greatestPlain.isNaN := by decide
  exact ⟨fun h => h.2.2, fun h => ⟨hnumber, hgreatest, h⟩⟩

theorem isFinite_of_content (hcontent : Content.ofFloat number = .finite negative magnitude) :
    number.isFinite := isFinite_iff.mpr ⟨negative, magnitude, hcontent⟩

theorem not_isNaN_of_content (hcontent : Content.ofFloat number = .finite negative magnitude) :
    ¬number.isNaN := not_isNaN_of_isFinite (isFinite_of_content hcontent)

theorem ofFloat_abs (hcontent : Content.ofFloat number = .finite negative magnitude) :
    Content.ofFloat number.abs = .finite false magnitude := by
  obtain ⟨hcanonical, hrange⟩ := Content.canonical_of_ofBits hcontent
  have habs : (magnitude.unpacked negative).abs = magnitude.unpacked false := by
    unfold Magnitude.unpacked
    split <;> rfl
  have hpack : number.abs = pack magnitude false := by
    show Float.ofModel (.pack number.toModel.unpack.abs) = _
    rw [unpack_toModel, hcontent]
    exact congrArg (fun unpacked => Float.ofModel (.pack unpacked)) habs
  rw [hpack]
  exact hcanonical.ofFloat_pack hrange _

/-! ### The number that is shown -/

def Plain (magnitude : Magnitude) : Prop := 1 / 1000 ≤ magnitude.value ∧ magnitude.value ≤ 1000

instance (magnitude : Magnitude) : Decidable (Plain magnitude) :=
  inferInstanceAs (Decidable (_ ∧ _))

/-- The power of ten that the last digit shown counts. -/
def lastUnit (magnitude : Magnitude) : Int :=
  if Plain magnitude then -shownPlaces else magnitude.decade - shownPlaces

def shown (magnitude : Magnitude) : ℚ := (magnitude.onGrid (lastUnit magnitude)).value

theorem thousandth_eq_pow : (1 / 1000 : ℚ) = 10 ^ (-3 : ℤ) := by norm_num

theorem thousand_eq_pow : (1000 : ℚ) = 10 ^ (3 : ℤ) := by norm_num

theorem lastUnit_of_plain (hplain : Plain magnitude) : lastUnit magnitude = -3 := if_pos hplain

theorem lastUnit_of_not_plain (hplain : ¬Plain magnitude) :
    lastUnit magnitude = magnitude.decade - 3 := if_neg hplain

theorem shown_nonneg (magnitude : Magnitude) : 0 ≤ shown magnitude := magnitude.onGrid_nonneg _

theorem shown_of_zero (hzero : magnitude.value = 0) : shown magnitude = 0 :=
  Magnitude.onGrid_of_zero hzero _

theorem shown_pos (hpos : 0 < magnitude.mantissa) : 0 < shown magnitude := by
  by_cases hplain : Plain magnitude
  · have hlow := hplain.1
    rw [thousandth_eq_pow] at hlow
    rw [shown, lastUnit_of_plain hplain]
    exact lt_of_lt_of_le (by positivity) (Magnitude.pow_le_onGrid le_rfl hlow)
  · rw [shown, lastUnit_of_not_plain hplain]
    exact lt_of_lt_of_le (by positivity)
      (Magnitude.pow_le_onGrid (by omega) (Magnitude.pow_decade_le hpos))

theorem shown_eq_zero_iff : shown magnitude = 0 ↔ magnitude.mantissa = 0 := by
  refine ⟨fun hzero => ?_, fun hzero => shown_of_zero (Magnitude.value_eq_zero_iff.mpr hzero)⟩
  exact Nat.eq_zero_of_not_pos fun hpos => (shown_pos hpos).ne' hzero

theorem decade_of_not_plain (hpos : 0 < magnitude.mantissa) (hplain : ¬Plain magnitude) :
    magnitude.value < 1 / 1000 ∧ magnitude.decade < -3 ∨
      1000 < magnitude.value ∧ 3 ≤ magnitude.decade := by
  obtain hlt | hge := lt_or_ge magnitude.value (1 / 1000)
  · exact .inl ⟨hlt, Magnitude.decade_lt hpos (thousandth_eq_pow ▸ hlt)⟩
  · have hgt : 1000 < magnitude.value := not_le.mp fun hle => hplain ⟨hge, hle⟩
    exact .inr ⟨hgt, Magnitude.le_decade (thousand_eq_pow ▸ hgt.le)⟩

/-- Between two grids lies the lower bound of the range or the decade of the greater magnitude. -/
theorem shown_mono (hle : magnitude.value ≤ other.value) : shown magnitude ≤ shown other := by
  obtain hzero | hpos := Nat.eq_zero_or_pos magnitude.mantissa
  · rw [shown_of_zero (Magnitude.value_eq_zero_iff.mpr hzero)]
    exact shown_nonneg other
  have hpos' : 0 < other.mantissa := by
    refine Nat.pos_of_ne_zero fun hzero => ?_
    have hvalue := Magnitude.value_eq_zero_iff.mpr hzero
    exact absurd (Magnitude.value_pos hpos) (not_lt.mpr (hle.trans hvalue.le))
  have hdecade := Magnitude.le_decade ((Magnitude.pow_decade_le hpos).trans hle)
  have hother := Magnitude.pow_decade_le hpos'
  by_cases hplain : Plain magnitude <;> by_cases hplain' : Plain other
  · rw [shown, shown, lastUnit_of_plain hplain, lastUnit_of_plain hplain']
    exact Magnitude.onGrid_mono hle _
  · obtain ⟨hsmall, -⟩ | ⟨-, hthree⟩ := decade_of_not_plain hpos' hplain'
    · exact absurd (hplain.1.trans hle) (not_le.mpr hsmall)
    have hlow : magnitude.value ≤ 10 ^ other.decade :=
      (thousand_eq_pow ▸ hplain.2).trans (zpow_le_zpow_right₀ (by norm_num) hthree)
    rw [shown, shown, lastUnit_of_plain hplain, lastUnit_of_not_plain hplain']
    exact Magnitude.onGrid_le_onGrid_of_pow (by omega) (by omega) hlow hother
  · obtain ⟨hsmall, hbelow⟩ | ⟨hgreat, -⟩ := decade_of_not_plain hpos hplain
    · rw [thousandth_eq_pow] at hsmall
      rw [shown, shown, lastUnit_of_not_plain hplain, lastUnit_of_plain hplain']
      exact Magnitude.onGrid_le_onGrid_of_pow (by omega) le_rfl hsmall.le
        (thousandth_eq_pow ▸ hplain'.1)
    · exact absurd (hle.trans hplain'.2) (not_le.mpr hgreat)
  · rw [shown, shown, lastUnit_of_not_plain hplain, lastUnit_of_not_plain hplain']
    obtain heq | hlt := hdecade.eq_or_lt
    · rw [heq]
      exact Magnitude.onGrid_mono hle _
    · have hlow : magnitude.value ≤ 10 ^ other.decade :=
        magnitude.lt_pow_decade.le.trans (zpow_le_zpow_right₀ (by norm_num) hlt)
      exact Magnitude.onGrid_le_onGrid_of_pow (by omega) (by omega) hlow hother

theorem abs_shown_sub_le_of_plain (hplain : Plain magnitude) :
    |shown magnitude - magnitude.value| ≤ 0.0005 := by
  have hclose := magnitude.abs_onGrid_sub_le (-3)
  rw [shown, lastUnit_of_plain hplain]
  exact hclose.trans (by norm_num)

theorem abs_shown_sub_le_of_not_plain {exponent : Int} (hplain : ¬Plain magnitude)
    (hexponent : magnitude.decade ≤ exponent) :
    |shown magnitude - magnitude.value| ≤ 0.0005 * 10 ^ exponent := by
  have hpow : (10 : ℚ) ^ magnitude.decade ≤ 10 ^ exponent :=
    zpow_le_zpow_right₀ (by norm_num) hexponent
  rw [shown, lastUnit_of_not_plain hplain]
  calc |(magnitude.onGrid (magnitude.decade - 3)).value - magnitude.value|
      ≤ 1 / 2 * 10 ^ (magnitude.decade - 3) := magnitude.abs_onGrid_sub_le _
    _ = 0.0005 * 10 ^ magnitude.decade := by
        rw [zpow_sub₀ (by norm_num)]
        ring
    _ ≤ 0.0005 * 10 ^ exponent := mul_le_mul_of_nonneg_left hpow (by norm_num)

/-! ### The text of a magnitude -/

def layout (magnitude : Magnitude) : List Char :=
  if Plain magnitude then (magnitude.withPlaces shownPlaces).positional
  else (magnitude.withDigits (shownPlaces + 1)).scientific (shownPlaces + 1) true

theorem layout_of_plain (hplain : Plain magnitude) :
    Positional shownPlaces (layout magnitude) ∧
      unsignedOf (layout magnitude) = shown magnitude := by
  rw [layout, if_pos hplain, Magnitude.withPlaces_eq, shown, lastUnit_of_plain hplain]
  exact positional_spec _ (by decide)

/--
The exponent is that of the leading digit or, if rounding has reached the next power of ten, one
more. So below the range it is `-3` at most, and above it is at least `3`.
-/
theorem layout_of_not_plain (hpos : 0 < magnitude.mantissa) (hplain : ¬Plain magnitude) :
    ∃ exponent, Scientific shownPlaces exponent (layout magnitude) ∧
      unsignedOf (layout magnitude) = shown magnitude ∧
      magnitude.decade ≤ exponent ∧ (magnitude.value < 1 / 1000 → exponent ≤ -3) ∧
      (1000 < magnitude.value → 3 ≤ exponent) := by
  obtain ⟨hvalue, hlow, hhigh, hexponent, hexponent'⟩ :=
    Magnitude.withDigits_spec hpos shownPlaces
  generalize hshown : (magnitude.withDigits (shownPlaces + 1)).exponent + (shownPlaces : Int) =
    exponent at hexponent hexponent'
  have hbounds : (magnitude.value < 1 / 1000 → exponent ≤ -3) ∧
      (1000 < magnitude.value → 3 ≤ exponent) := by
    obtain ⟨hsmall, hdecade⟩ | ⟨hgreat, hdecade⟩ := decade_of_not_plain hpos hplain
    · exact ⟨fun _ => by omega, fun hgreat => by linarith⟩
    · exact ⟨fun hsmall => by linarith, fun _ => by omega⟩
  have hnonzero : exponent ≠ 0 := by
    obtain ⟨-, hdecade⟩ | ⟨-, hdecade⟩ := decade_of_not_plain hpos hplain
    · omega
    · omega
  obtain ⟨hshape, hnumber⟩ := scientific_spec (by decide) hlow hhigh hshown hnonzero
  rw [layout, if_neg hplain]
  refine ⟨exponent, hshape, ?_, hexponent, hbounds⟩
  rw [hnumber, hvalue, shown, lastUnit_of_not_plain hplain]
  rfl

/-! ### The text of a number -/

theorem signed_eq_zero_iff (negative : Bool) {q : ℚ} : signed negative q = 0 ↔ q = 0 := by
  cases negative <;> simp

theorem lt_iff_not_le_float (hx : ¬x.isNaN) (hy : ¬y.isNaN) : x < y ↔ ¬y ≤ x :=
  ⟨fun hlt hle => absurd (lt_iff.mp hlt).2.2 (not_lt.mpr (le_iff.mp hle).2.2),
    lt_of_not_le hx hy⟩

theorem beq_zero_iff (hcontent : Content.ofFloat number = .finite negative magnitude) :
    (number == 0) = true ↔ magnitude.mantissa = 0 := by
  rw [beq_iff, rank_zero, rank_eq_of_content hcontent,
    and_iff_right (not_isNaN_of_content hcontent), and_iff_right (by decide), signed_eq_zero_iff,
    Magnitude.value_eq_zero_iff]

theorem pos_iff (hcontent : Content.ofFloat number = .finite negative magnitude) :
    0 < number ↔ negative = false ∧ 0 < magnitude.mantissa := by
  rw [lt_iff, rank_zero, rank_eq_of_content hcontent, and_iff_right (by decide),
    and_iff_right (not_isNaN_of_content hcontent), ← Magnitude.value_pos_iff]
  cases negative with
  | true => simpa using magnitude.value_nonneg
  | false => simp

theorem neg_iff (hcontent : Content.ofFloat number = .finite negative magnitude) :
    number < 0 ↔ negative = true ∧ 0 < magnitude.mantissa := by
  rw [lt_iff, rank_zero, rank_eq_of_content hcontent,
    and_iff_right (not_isNaN_of_content hcontent), and_iff_right (by decide),
    ← Magnitude.value_pos_iff]
  cases negative with
  | true => simp
  | false => simpa using magnitude.value_nonneg

theorem plain_iff (hcontent : Content.ofFloat number = .finite negative magnitude) :
    leastPlain ≤ number.abs ∧ number.abs ≤ greatestPlain ↔ Plain magnitude := by
  have habs := ofFloat_abs hcontent
  have hfinite := isFinite_of_content habs
  rw [leastPlain_le_iff hfinite, le_greatestPlain_iff hfinite, rank_eq_of_content habs,
    signed_false, Plain]

theorem lt_leastPlain_iff (hcontent : Content.ofFloat number = .finite negative magnitude) :
    number.abs < leastPlain ↔ magnitude.value < 1 / 1000 := by
  have habs := ofFloat_abs hcontent
  rw [lt_iff_not_le_float (not_isNaN_of_content habs) (by decide),
    leastPlain_le_iff (isFinite_of_content habs), rank_eq_of_content habs, signed_false, not_le]

theorem greatestPlain_lt_iff (hcontent : Content.ofFloat number = .finite negative magnitude) :
    greatestPlain < number.abs ↔ 1000 < magnitude.value := by
  have habs := ofFloat_abs hcontent
  rw [lt_iff_not_le_float (by decide) (not_isNaN_of_content habs),
    le_greatestPlain_iff (isFinite_of_content habs), rank_eq_of_content habs, signed_false, not_le]

theorem display_of_zero (hfinite : number.isFinite) (hzero : (number == 0) = true) :
    display number = "0" := by
  rw [display, hfinite, hzero]
  rfl

theorem display_of_pos (hcontent : Content.ofFloat number = .finite negative magnitude)
    (hpos : 0 < magnitude.mantissa) :
    display number = String.ofList (withSign negative (layout magnitude)) := by
  have hfinite : number.isFinite = true := isFinite_of_content hcontent
  have hnonzero : (number == 0) = false :=
    Bool.eq_false_iff.mpr fun hzero => hpos.ne' ((beq_zero_iff hcontent).mp hzero)
  have houtside : (decide (number.abs < leastPlain) || decide (greatestPlain < number.abs)) = true ↔
      ¬Plain magnitude := by
    rw [Bool.or_eq_true, decide_eq_true_iff, decide_eq_true_iff, lt_leastPlain_iff hcontent,
      greatestPlain_lt_iff hcontent, Plain, not_and_or, not_le, not_le]
  rw [display, hfinite, hnonzero, if_neg (by decide), if_neg (by decide), layout]
  by_cases hplain : Plain magnitude
  · rw [if_neg fun hout => houtside.mp hout hplain, if_pos hplain, textWith, hcontent]
  · rw [if_pos (houtside.mpr hplain), if_neg hplain, textWith, hcontent]

/-! ### Main statement -/

/-- The number that the text of a number denotes. -/
def shownNumber (number : Float) : ℚ := numberOf (display number).toList

theorem numberOf_layout (hpos : 0 < magnitude.mantissa) (negative : Bool) :
    numberOf (withSign negative (layout magnitude)) = signed negative (shown magnitude) := by
  by_cases hplain : Plain magnitude
  · obtain ⟨hshape, hnumber⟩ := layout_of_plain hplain
    rw [numberOf_withSign negative hshape.head_ne, hnumber]
  · obtain ⟨exponent, hshape, hnumber, -⟩ := layout_of_not_plain hpos hplain
    rw [numberOf_withSign negative hshape.head_ne, hnumber]

theorem numberOf_zero : numberOf "0".toList = 0 := by
  have hdigits : ∀ c ∈ ['0'], Formula.isDigit c := List.forall_mem_singleton.mpr (by decide)
  have hplain : ∀ c ∈ ['0'], c ≠ 'e' := List.forall_mem_singleton.mpr (by decide)
  show unsignedOf ['0'] = 0
  rw [unsignedOf_plain hplain, Formula.numeralOf_integer hdigits]
  exact zero_mul _

theorem shownNumber_eq (hcontent : Content.ofFloat number = .finite negative magnitude) :
    shownNumber number = signed negative (shown magnitude) := by
  rw [shownNumber]
  obtain hzero | hpos := Nat.eq_zero_or_pos magnitude.mantissa
  · rw [display_of_zero (isFinite_of_content hcontent) ((beq_zero_iff hcontent).mpr hzero),
      shown_of_zero (Magnitude.value_eq_zero_iff.mpr hzero), signed_zero]
    exact numberOf_zero
  · rw [display_of_pos hcontent hpos, String.toList_ofList, numberOf_layout hpos]

theorem signed_le_signed (hle : signed negative magnitude.value ≤ signed negative' other.value) :
    signed negative (shown magnitude) ≤ signed negative' (shown other) := by
  have hvalue := magnitude.value_nonneg
  have hvalue' := other.value_nonneg
  have hshown := shown_nonneg magnitude
  have hshown' := shown_nonneg other
  cases negative with
  | true =>
      cases negative' with
      | true => exact neg_le_neg (shown_mono (neg_le_neg_iff.mp hle))
      | false => exact (neg_nonpos.mpr hshown).trans hshown'
  | false =>
      cases negative' with
      | true =>
          have hle : magnitude.value ≤ -other.value := hle
          rw [shown_of_zero (by linarith : magnitude.value = 0),
            shown_of_zero (by linarith : other.value = 0), signed_zero, signed_zero]
      | false => exact shown_mono hle

/--
What the text of a finite number says about it: whether it is zero, its sign, and a number close to
it, written without an exponent in the range from a thousandth to a thousand and with one outside.
-/
structure Faithful (number : Float) : Prop where
  zero_iff : shownNumber number = 0 ↔ number == 0
  of_zero : number == 0 → display number = "0"
  neg_of_pos : 0 < number → display (-number) = "-" ++ display number.abs
  neg_of_neg : number < 0 → display (-number) = display number.abs
  of_plain : 0.001 ≤ number.abs → number.abs ≤ 1000 →
    (∃ text, Positional 3 text ∧
      display number = String.ofList (withSign (decide (number < 0)) text)) ∧
    |shownNumber number - rank number| ≤ 0.0005
  of_not_plain : ¬number == 0 → ¬(0.001 ≤ number.abs ∧ number.abs ≤ 1000) →
    ∃ (exponent : Int) (text : List Char), Scientific 3 exponent text ∧
      display number = String.ofList (withSign (decide (number < 0)) text) ∧
      (1000 < number.abs → 3 ≤ exponent) ∧ (number.abs < 0.001 → exponent ≤ -3) ∧
      |shownNumber number - rank number| ≤ 0.0005 * 10 ^ exponent

theorem decide_neg (hcontent : Content.ofFloat number = .finite negative magnitude)
    (hpos : 0 < magnitude.mantissa) : decide (number < 0) = negative := by
  rw [Bool.eq_iff_iff, decide_eq_true_iff, neg_iff hcontent, and_iff_left hpos]

/-- What is shown is as far from a number as it is from the magnitude. -/
theorem abs_shownNumber_sub (hcontent : Content.ofFloat number = .finite negative magnitude) :
    |shownNumber number - rank number| = |shown magnitude - magnitude.value| := by
  rw [shownNumber_eq hcontent, rank_eq_of_content hcontent]
  cases negative with
  | true =>
      rw [signed_true, signed_true, abs_sub_comm]
      congr 1
      ring
  | false => rfl

theorem faithful_of_content (hcontent : Content.ofFloat number = .finite negative magnitude) :
    Faithful number where
  zero_iff := by
    rw [shownNumber_eq hcontent, signed_eq_zero_iff, shown_eq_zero_iff, beq_zero_iff hcontent]
  of_zero hzero := display_of_zero (isFinite_of_content hcontent) hzero
  neg_of_pos hnumber := by
    obtain ⟨rfl, hpos⟩ := (pos_iff hcontent).mp hnumber
    rw [display_of_pos (Content.ofFloat_neg hcontent) hpos,
      display_of_pos (ofFloat_abs hcontent) hpos]
    rw [show "-" = String.ofList ['-'] from rfl, ← String.ofList_append]
    rfl
  neg_of_neg hnumber := by
    obtain ⟨rfl, -⟩ := (neg_iff hcontent).mp hnumber
    rw [Content.ofFloat_injective (Content.ofFloat_neg hcontent) (ofFloat_abs hcontent)]
  of_plain hleast hgreatest := by
    have hplain := (plain_iff hcontent).mp ⟨hleast, hgreatest⟩
    have hpos : 0 < magnitude.mantissa :=
      Magnitude.value_pos_iff.mp (lt_of_lt_of_le (by norm_num) hplain.1)
    refine ⟨⟨_, (layout_of_plain hplain).1, ?_⟩, ?_⟩
    · rw [decide_neg hcontent hpos, display_of_pos hcontent hpos]
    · rw [abs_shownNumber_sub hcontent]
      exact abs_shown_sub_le_of_plain hplain
  of_not_plain hnonzero hrange := by
    have hpos : 0 < magnitude.mantissa :=
      Nat.pos_of_ne_zero fun hzero => hnonzero ((beq_zero_iff hcontent).mpr hzero)
    have hplain : ¬Plain magnitude := fun hplain => hrange ((plain_iff hcontent).mpr hplain)
    obtain ⟨exponent, hshape, -, hdecade, hsmall, hgreat⟩ := layout_of_not_plain hpos hplain
    refine ⟨exponent, layout magnitude, hshape, ?_, fun hlt => ?_, fun hlt => ?_, ?_⟩
    · rw [decide_neg hcontent hpos, display_of_pos hcontent hpos]
    · exact hgreat ((greatestPlain_lt_iff hcontent).mp hlt)
    · exact hsmall ((lt_leastPlain_iff hcontent).mp hlt)
    · rw [abs_shownNumber_sub hcontent]
      exact abs_shown_sub_le_of_not_plain hplain hdecade

/-- The texts of finite numbers are faithful, and the numbers that they denote are in order. -/
theorem display_faithful {x y : Float} (hx : x.isFinite) (hy : y.isFinite) :
    Faithful x ∧ (x ≤ y → shownNumber x ≤ shownNumber y) := by
  obtain ⟨negative, magnitude, hcontent⟩ := isFinite_iff.mp hx
  obtain ⟨negative', other, hcontent'⟩ := isFinite_iff.mp hy
  refine ⟨faithful_of_content hcontent, fun hle => ?_⟩
  have hrank := (le_iff.mp hle).2.2
  rw [rank_eq_of_content hcontent, rank_eq_of_content hcontent'] at hrank
  rw [shownNumber_eq hcontent, shownNumber_eq hcontent']
  exact signed_le_signed hrank

/-- Rounding carries the number below the range up to its lower bound, in the other notation. -/
theorem display_faithful_threshold :
    Faithful 0.0009999999999999998 ∧ shownNumber 0.0009999999999999998 ≤ shownNumber 0.001 ∧
      display 0.0009999999999999998 = "1.000e-3" ∧ display 0.001 = "0.001" := by
  obtain ⟨hfaithful, hmono⟩ :=
    @display_faithful 0.0009999999999999998 0.001 (by decide) (by decide)
  exact ⟨hfaithful, hmono (by decide), by decide +kernel, by decide +kernel⟩

/-- The text of a negative number has the minus sign, not that of its negative. -/
theorem display_neg_not_signed : ¬∀ number : Float, number.isFinite → ¬number == 0 →
    display (-number) = "-" ++ display number.abs := by
  intro hall
  have hone : display (-(-1)) = "-" ++ display (-1 : Float).abs := hall (-1) (by decide) (by decide)
  exact absurd hone (by decide +kernel)

end Waveform.Energy
