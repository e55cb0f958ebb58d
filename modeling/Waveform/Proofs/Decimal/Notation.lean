import Waveform.Proofs.Decimal.Order
import Waveform.Proofs.Formula.Rendering

/-!
# The numbers that texts denote

A decimal text is read as an exact number: digits with a point among them count units of their last
place, an exponent moves the point, and a minus sign in front makes the number negative. Both ways
to write a numeral denote its value, and what they write has the announced shape: so many decimals,
one leading digit that is not zero, an exponent with its sign and without zeros in front.
-/

namespace Waveform.Decimal

open Formula (isDigit numeralOf isDigit_paddedDigits isDigit_toDigits isDigit_replicate_zero
  ofDigitChars_paddedDigits lt_length_paddedDigits numeralOf_decimal)

/-! ### Reading a text -/

/-- The whole number written by digits behind a sign, if there is one. -/
def integerOf : List Char → Int
  | '-' :: digits => -Nat.ofDigitChars 10 digits 0
  | '+' :: digits => Nat.ofDigitChars 10 digits 0
  | digits => Nat.ofDigitChars 10 digits 0

/-- The number denoted by digits, a point and an exponent. -/
def unsignedOf (text : List Char) : ℚ :=
  (numeralOf (text.takeWhile (· != 'e'))).value *
    10 ^ integerOf ((text.dropWhile (· != 'e')).drop 1)

/-- The number denoted by a decimal text. -/
def numberOf : List Char → ℚ
  | '-' :: text => -unsignedOf text
  | text => unsignedOf text

theorem numberOf_withSign (negative : Bool) {text : List Char} (hplain : text.head? ≠ some '-') :
    numberOf (withSign negative text) = signed negative (unsignedOf text) := by
  cases negative with
  | true => rfl
  | false =>
      rw [withSign, if_neg Bool.false_ne_true, signed_false]
      cases text with
      | nil => rfl
      | cons first rest =>
          have hfirst : first ≠ '-' := fun heq => hplain (congrArg some heq)
          rw [numberOf]
          simpa using hfirst

theorem unsignedOf_plain {text : List Char} (hplain : ∀ c ∈ text, c ≠ 'e') :
    unsignedOf text = (numeralOf text).value := by
  have hall : ∀ c ∈ text, (c != 'e') = true := fun c hc => bne_iff_ne.mpr (hplain c hc)
  rw [unsignedOf, List.takeWhile_eq_self_iff.mpr hall, List.dropWhile_eq_nil_iff.mpr hall,
    List.drop_nil]
  exact mul_one _

theorem unsignedOf_exponent {text exponent : List Char} (hplain : ∀ c ∈ text, c ≠ 'e') :
    unsignedOf (text ++ 'e' :: exponent) =
      (numeralOf text).value * 10 ^ integerOf exponent := by
  have hall : ∀ c ∈ text, (c != 'e') = true := fun c hc => bne_iff_ne.mpr (hplain c hc)
  rw [unsignedOf, List.takeWhile_append_of_pos hall, List.dropWhile_append_of_pos hall,
    List.takeWhile_cons_of_neg (by decide), List.dropWhile_cons_of_neg (by decide),
    List.append_nil]
  rfl

theorem integerOf_exponentText (exponent : Int) :
    integerOf (Numeral.exponentText true exponent) = exponent := by
  rw [Numeral.exponentText]
  split
  · rw [integerOf, Nat.ofDigitChars_ten_toDigits]
    omega
  · rw [if_pos rfl, integerOf, Nat.ofDigitChars_ten_toDigits]
    omega

/-! ### Digits -/

theorem head_toDigits_ne_zero {n : Nat} (hpos : 0 < n) : (Nat.toDigits 10 n).head? ≠ some '0' := by
  induction n using Nat.strong_induction_on with
  | _ n ih =>
      obtain hlt | hge := Nat.lt_or_ge n 10
      · rw [Nat.toDigits_of_lt_base hlt]
        interval_cases n <;> decide
      · rw [Nat.toDigits_of_base_le (by decide) hge,
          List.head?_append_of_ne_nil _ Nat.toDigits_ne_nil]
        exact ih (n / 10) (by omega) (by omega)

theorem paddedDigits_of_le {width n : Nat} (hle : width ≤ (Nat.toDigits 10 n).length) :
    paddedDigits width n = Nat.toDigits 10 n := by
  rw [paddedDigits, Nat.sub_eq_zero_of_le hle, List.replicate_zero, List.nil_append]

theorem ne_of_isDigit {c other : Char} (hdigit : isDigit c) (hother : isDigit other = false) :
    c ≠ other := by
  rintro rfl
  rw [hdigit] at hother
  cases hother

theorem ne_e_of_decimal {whole fraction : List Char}
    (hdigits : ∀ c ∈ whole ++ fraction, isDigit c) : ∀ c ∈ whole ++ '.' :: fraction, c ≠ 'e' := by
  intro c hc
  rw [List.forall_mem_append] at hdigits
  rw [List.mem_append, List.mem_cons] at hc
  obtain hc | rfl | hc := hc
  · exact ne_of_isDigit (hdigits.1 c hc) (by decide)
  · decide
  · exact ne_of_isDigit (hdigits.2 c hc) (by decide)

/-! ### Positional texts -/

/-- Digits, and a number of decimals behind a point. -/
def Positional (places : Nat) (text : List Char) : Prop :=
  ∃ whole fraction, text = whole ++ '.' :: fraction ∧ whole ≠ [] ∧ fraction.length = places ∧
    ∀ c ∈ whole ++ fraction, isDigit c

theorem Positional.head_ne {places : Nat} {text : List Char} (htext : Positional places text) :
    text.head? ≠ some '-' := by
  obtain ⟨whole, fraction, rfl, hwhole, -, hdigits⟩ := htext
  obtain ⟨first, rest, rfl⟩ := List.exists_cons_of_ne_nil hwhole
  have hfirst : first ≠ '-' := ne_of_isDigit (hdigits first List.mem_cons_self) (by decide)
  simpa using hfirst

theorem positional_spec (coefficient : Nat) {places : Nat} (hplaces : 0 < places) :
    Positional places (Numeral.positional ⟨coefficient, -places⟩) ∧
      unsignedOf (Numeral.positional ⟨coefficient, -places⟩) =
        Numeral.value ⟨coefficient, -places⟩ := by
  have hlength := lt_length_paddedDigits places coefficient
  have hdigits := @isDigit_paddedDigits (places + 1) coefficient
  have hcoefficient := ofDigitChars_paddedDigits (places + 1) coefficient
  have hcount : (- -(places : Int)).toNat = places := by omega
  rw [Numeral.positional]
  simp only [hcount]
  rw [if_neg hplaces.ne']
  generalize paddedDigits (places + 1) coefficient = digits at *
  have hfraction : (digits.drop (digits.length - places)).length = places := by
    rw [List.length_drop]
    omega
  rw [← List.take_append_drop (digits.length - places) digits] at hdigits hcoefficient
  have hwhole : digits.take (digits.length - places) ≠ [] := by
    rw [← List.length_pos_iff, List.length_take]
    omega
  refine ⟨⟨_, _, rfl, hwhole, hfraction, hdigits⟩, ?_⟩
  rw [unsignedOf_plain (ne_e_of_decimal hdigits), numeralOf_decimal hdigits, hcoefficient,
    hfraction]

/-! ### Texts with an exponent -/

/--
One digit that is not zero, a number of decimals behind a point, and behind the letter e the sign
of an exponent and its digits, none of them a zero in front.
-/
def Scientific (places : Nat) (exponent : Int) (text : List Char) : Prop :=
  ∃ lead fraction digits,
    text = lead :: '.' :: fraction ++
      'e' :: (if exponent < 0 then '-' else '+') :: digits ∧
    lead ≠ '0' ∧ fraction.length = places ∧ (∀ c ∈ lead :: fraction, isDigit c) ∧
    digits = Nat.toDigits 10 exponent.natAbs ∧ digits.head? ≠ some '0'

theorem Scientific.head_ne {places : Nat} {exponent : Int} {text : List Char}
    (htext : Scientific places exponent text) : text.head? ≠ some '-' := by
  obtain ⟨lead, fraction, digits, rfl, -, -, hdigits, -⟩ := htext
  have hlead : lead ≠ '-' := ne_of_isDigit (hdigits lead List.mem_cons_self) (by decide)
  simpa using hlead

theorem exponentText_true (exponent : Int) :
    Numeral.exponentText true exponent =
      (if exponent < 0 then '-' else '+') :: Nat.toDigits 10 exponent.natAbs := by
  rw [Numeral.exponentText]
  split <;> rfl

theorem length_toDigits_eq {n places : Nat} (hplaces : 0 < places) (hlow : 10 ^ places ≤ n)
    (hhigh : n < 10 ^ (places + 1)) : (Nat.toDigits 10 n).length = places + 1 := by
  have hle := (Nat.length_toDigits_le_iff (by decide) (Nat.succ_pos places)).mpr hhigh
  have hmore : ¬(Nat.toDigits 10 n).length ≤ places := fun hfew =>
    Nat.not_lt_of_le hlow ((Nat.length_toDigits_le_iff (by decide) hplaces).mp hfew)
  omega

theorem scientific_eq {numeral : Numeral} {lead : Char} {fraction : List Char}
    (hdigits : Nat.toDigits 10 numeral.coefficient = lead :: fraction) (hsome : fraction ≠ []) :
    numeral.scientific (fraction.length + 1) true = (lead :: '.' :: fraction) ++
      'e' :: Numeral.exponentText true (numeral.exponent + fraction.length) := by
  have hpadded : paddedDigits (fraction.length + 1) numeral.coefficient = lead :: fraction := by
    rw [paddedDigits_of_le (by rw [hdigits, List.length_cons]), hdigits]
  rw [Numeral.scientific, hpadded]
  simp [hsome]

theorem scientific_spec {numeral : Numeral} {places : Nat} {exponent : Int}
    (hplaces : 0 < places) (hlow : 10 ^ places ≤ numeral.coefficient)
    (hhigh : numeral.coefficient < 10 ^ (places + 1))
    (hexponent : numeral.exponent + places = exponent) (hnonzero : exponent ≠ 0) :
    Scientific places exponent (numeral.scientific (places + 1) true) ∧
      unsignedOf (numeral.scientific (places + 1) true) = numeral.value := by
  have hlength := length_toDigits_eq hplaces hlow hhigh
  obtain ⟨lead, fraction, hspelled⟩ := List.exists_cons_of_ne_nil
    (Nat.toDigits_ne_nil : Nat.toDigits 10 numeral.coefficient ≠ [])
  obtain rfl : fraction.length = places := by
    rw [hspelled, List.length_cons] at hlength
    exact Nat.succ.inj hlength
  have hdigits : ∀ c ∈ lead :: fraction, isDigit c := hspelled ▸ isDigit_toDigits
  have hlead : lead ≠ '0' := by
    have hpos : 0 < numeral.coefficient := Nat.lt_of_lt_of_le (Nat.pow_pos (by decide)) hlow
    have hhead := head_toDigits_ne_zero hpos
    rw [hspelled] at hhead
    simpa using hhead
  rw [scientific_eq hspelled (List.length_pos_iff.mp hplaces), hexponent]
  constructor
  · refine ⟨lead, fraction, _, ?_, hlead, rfl, hdigits, rfl, ?_⟩
    · rw [exponentText_true]
    · exact head_toDigits_ne_zero (Int.natAbs_pos.mpr hnonzero)
  · have hcoefficient : Nat.ofDigitChars 10 ([lead] ++ fraction) 0 = numeral.coefficient := by
      rw [List.singleton_append, ← hspelled, Nat.ofDigitChars_ten_toDigits]
    have hnumeral : numeralOf ([lead] ++ '.' :: fraction) =
        ⟨numeral.coefficient, -fraction.length⟩ := by
      rw [numeralOf_decimal hdigits, hcoefficient]
    have hplain : ∀ c ∈ [lead] ++ '.' :: fraction, c ≠ 'e' := ne_e_of_decimal hdigits
    rw [List.singleton_append] at hnumeral hplain
    rw [unsignedOf_exponent hplain, hnumeral, integerOf_exponentText, ← hexponent]
    show (numeral.coefficient : ℚ) * 10 ^ (-(fraction.length : Int)) *
      10 ^ (numeral.exponent + fraction.length) = numeral.coefficient * 10 ^ numeral.exponent
    rw [mul_assoc, ← zpow_add₀ (by norm_num)]
    congr 2
    omega

end Waveform.Decimal
