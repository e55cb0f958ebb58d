import Waveform.Formula.Lexeme
import Waveform.Proofs.Decimal.Numeral
import Waveform.Proofs.Formula.Reading

/-!
# The tokens of a text

What the tokens of a formula are, without saying how they are found. The visible characters are cut
from left to right; each piece spells a token, and no longer run at the same place does. The tokens
are those that the pieces spell, at the place of their first character, with a multiplication
between neighbours that are written side by side and the end behind them.

A run is the longest one if no token continues it by the character behind it. Each kind of spelling
is closed under this: a number goes on with a digit or with its first point, a name with a letter.
Main statement: `tokenize_eq_ok`.
-/

namespace Waveform.Formula

open Waveform.Decimal (IsReading isReading_whole isReading_decimal)
open Waveform.Formula.Parser (bind_eq_ok pure_eq_ok)

/-! ### What characters spell -/

/-- The tokens that are written as a single character. -/
def symbols : List (Char × Token) :=
  [('+', .operator .add), ('-', .operator .sub), ('*', .operator .mul), ('×', .operator .mul),
    ('/', .operator .div), ('÷', .operator .div), ('^', .operator .pow), ('(', .openParen),
    (')', .closeParen), (',', .comma)]

/--
The spelling of a token: digits with at most one point, letters, two asterisks or a symbol. Digits
are read with correct rounding, and the Greek letter in a name as its two letters.
-/
inductive Spells : List Char → Token → Prop
  | integer {digits : List Char} {value : Float} (hne : digits ≠ [])
      (hdigits : ∀ c ∈ digits, isDigit c)
      (hvalue : IsReading value (Nat.ofDigitChars 10 digits 0)) :
    Spells digits (.number value)
  | decimal {whole fraction : List Char} {value : Float} (hne : whole ++ fraction ≠ [])
      (hdigits : ∀ c ∈ whole ++ fraction, isDigit c)
      (hvalue : IsReading value
        (Nat.ofDigitChars 10 (whole ++ fraction) 0 / 10 ^ fraction.length)) :
    Spells (whole ++ '.' :: fraction) (.number value)
  | name {letters : List Char} (hne : letters ≠ []) (hletters : ∀ c ∈ letters, isLetter c) :
    Spells letters
      (.name (String.ofList (letters.flatMap fun c => if c = 'π' then ['p', 'i'] else [c])))
  | power : Spells ['*', '*'] (.operator .pow)
  | symbol {c : Char} {token : Token} (hmem : (c, token) ∈ symbols) : Spells [c] token

theorem exists_spells_integer {digits : List Char} (hne : digits ≠ [])
    (hdigits : ∀ c ∈ digits, isDigit c) : ∃ token, Spells digits token :=
  ⟨_, .integer hne hdigits (isReading_whole _)⟩

theorem exists_spells_decimal {whole fraction : List Char} (hne : whole ++ fraction ≠ [])
    (hdigits : ∀ c ∈ whole ++ fraction, isDigit c) :
    ∃ token, Spells (whole ++ '.' :: fraction) token :=
  ⟨_, .decimal hne hdigits (isReading_decimal _ _)⟩

/-- No run that is longer spells a token. -/
def Longest (run rest : List Char) : Prop :=
  ∀ longer token, longer <+: run ++ rest → Spells longer token → longer.length ≤ run.length

theorem isDigit_point : isDigit '.' = false := by decide

theorem isAlpha_eq (c : Char) :
    c.isAlpha = (decide (c.val ≥ 65 ∧ c.val ≤ 90) || c.val ≥ 97 && c.val ≤ 122) := rfl

theorem isLetter_eq_false {c : Char} (hdigit : isDigit c) : isLetter c = false := by
  cases hletter : isLetter c with
  | false => rfl
  | true =>
      simp only [isLetter, isDigit, isAlpha_eq, Char.isDigit,
        Bool.or_eq_true, Bool.and_eq_true, decide_eq_true_eq, beq_iff_eq,
        UInt32.le_iff_toNat_le] at hletter hdigit
      rcases hletter with (hupper | hlower) | rfl
      · simp at hupper hdigit
        omega
      · simp at hlower hdigit
        omega
      · simp at hdigit

theorem symbol_plain {c : Char} {token : Token} (hmem : (c, token) ∈ symbols) :
    isDigit c = false ∧ c ≠ '.' ∧ isLetter c = false :=
  (by decide : ∀ symbol ∈ symbols,
    isDigit symbol.1 = false ∧ symbol.1 ≠ '.' ∧ isLetter symbol.1 = false) _ hmem

theorem tokenOfSymbol?_eq_some {c : Char} {token : Token} :
    tokenOfSymbol? c = some token ↔ (c, token) ∈ symbols := by
  constructor
  · intro htoken
    unfold tokenOfSymbol? at htoken
    split at htoken <;> simp_all [symbols]
  · intro hmem
    exact (by decide : ∀ symbol ∈ symbols, tokenOfSymbol? symbol.1 = some symbol.2) _ hmem

theorem Spells.ne_nil {run : List Char} {token : Token} (hspells : Spells run token) :
    run ≠ [] := by
  cases hspells with
  | integer hne => exact hne
  | decimal => simp
  | name hne => exact hne
  | power => simp
  | symbol => simp

theorem Spells.ne_finish {run : List Char} {token : Token} (hspells : Spells run token) :
    token ≠ .finish := by
  cases hspells with
  | symbol hmem =>
      intro heq
      rw [heq] at hmem
      simp [symbols] at hmem
  | _ => exact Token.noConfusion

theorem numeralOf_integer {digits : List Char} (hdigits : ∀ c ∈ digits, isDigit c) :
    numeralOf digits = ⟨Nat.ofDigitChars 10 digits 0, 0⟩ := by
  have hrest : digits.dropWhile isDigit = [] := by
    rw [← List.append_nil digits, List.dropWhile_append_of_pos hdigits, List.dropWhile_nil]
  simp only [numeralOf, List.filter_eq_self.mpr hdigits, hrest]
  rfl

theorem numeralOf_decimal {whole fraction : List Char}
    (hdigits : ∀ c ∈ whole ++ fraction, isDigit c) :
    numeralOf (whole ++ '.' :: fraction) =
      ⟨Nat.ofDigitChars 10 (whole ++ fraction) 0, -fraction.length⟩ := by
  have hwhole : ∀ c ∈ whole, isDigit c := fun c hc => hdigits c (List.mem_append_left _ hc)
  have hfraction : ∀ c ∈ fraction, isDigit c := fun c hc => hdigits c (List.mem_append_right _ hc)
  simp only [numeralOf, List.filter_append, List.filter_eq_self.mpr hwhole,
    List.filter_cons_of_neg (by decide : ¬isDigit '.'), List.filter_eq_self.mpr hfraction,
    List.dropWhile_append_of_pos hwhole]
  rw [List.dropWhile_cons_of_neg (by decide), List.drop_succ_cons, List.drop_zero]

theorem Spells.token? {lexeme : Lexeme} {token : Token}
    (hspells : Spells lexeme.characters token) : lexeme.token? = some token := by
  have hfirst : lexeme.characters = lexeme.first.value :: lexeme.others := rfl
  generalize hrun : lexeme.characters = run at hspells
  cases hspells with
  | integer hne hdigits hvalue =>
      have hany : run.any isDigit := by
        obtain ⟨c, hc⟩ := List.exists_mem_of_ne_nil _ hne
        exact List.any_eq_true.mpr ⟨c, hc, hdigits c hc⟩
      simp only [Lexeme.token?, hrun]
      rw [if_pos hany, numeralOf_integer hdigits, hvalue.unique (isReading_whole _)]
  | @decimal whole fraction value hne hdigits hvalue =>
      have hany : (whole ++ '.' :: fraction).any isDigit := by
        obtain ⟨c, hc⟩ := List.exists_mem_of_ne_nil _ hne
        refine List.any_eq_true.mpr ⟨c, ?_, hdigits c hc⟩
        rw [List.mem_append, List.mem_cons]
        exact (List.mem_append.mp hc).imp_right .inr
      simp only [Lexeme.token?, hrun]
      rw [if_pos hany, numeralOf_decimal hdigits, hvalue.unique (isReading_decimal _ _)]
  | name hne hletters =>
      have hany : run.any isDigit = false := by
        rw [List.any_eq_false]
        intro c hc hdigit
        exact Bool.noConfusion ((isLetter_eq_false hdigit).symm.trans (hletters c hc))
      have hletter : isLetter lexeme.first.value := hletters _ (by rw [← hrun, hfirst]; simp)
      simp only [Lexeme.token?, hrun]
      rw [hany, if_neg Bool.false_ne_true, if_pos hletter, nameOf]
  | power =>
      have hstar : lexeme.first.value = '*' := (List.cons.inj (hfirst.symm.trans hrun)).1
      simp only [Lexeme.token?, hrun, hstar]
      rfl
  | @symbol c _ hmem =>
      obtain ⟨hdigit, -, hletter⟩ := symbol_plain hmem
      have hc : lexeme.first.value = c := (List.cons.inj (hfirst.symm.trans hrun)).1
      simp only [Lexeme.token?, hrun, hc, List.any_cons, List.any_nil, hdigit, hletter]
      simpa using tokenOfSymbol?_eq_some.mpr hmem

/-! ### The longest spelling -/

def isNumeric (c : Char) : Bool := isDigit c || c == '.'

theorem isNumeric_of_isDigit {c : Char} (hdigit : isDigit c) : isNumeric c := by
  simp [isNumeric, hdigit]

theorem isLetter_of_isNumeric {c : Char} (hnumeric : isNumeric c) : isLetter c = false := by
  rw [isNumeric, Bool.or_eq_true, beq_iff_eq] at hnumeric
  rcases hnumeric with hdigit | rfl
  · exact isLetter_eq_false hdigit
  · decide

theorem Spells.numeric {run : List Char} {token : Token} (hspells : Spells run token) :
    (∀ c ∈ run, isNumeric c) ∨ ∀ c ∈ run, isNumeric c = false := by
  cases hspells with
  | integer _ hdigits => exact .inl fun c hc => isNumeric_of_isDigit (hdigits c hc)
  | decimal _ hdigits =>
      left
      intro c hc
      rw [List.mem_append, List.mem_cons] at hc
      rcases hc with hc | rfl | hc
      · exact isNumeric_of_isDigit (hdigits c (List.mem_append_left _ hc))
      · rfl
      · exact isNumeric_of_isDigit (hdigits c (List.mem_append_right _ hc))
  | name _ hletters =>
      right
      intro c hc
      cases hnumeric : isNumeric c with
      | false => rfl
      | true => exact absurd (hletters c hc) (by simp [isLetter_of_isNumeric hnumeric])
  | power =>
      right
      rw [List.forall_mem_cons, List.forall_mem_singleton]
      decide
  | symbol hmem =>
      right
      intro c hc
      obtain rfl := List.mem_singleton.mp hc
      obtain ⟨hdigit, hpoint, -⟩ := symbol_plain hmem
      simp [isNumeric, hdigit, hpoint]

theorem Spells.numeric_of_number {run : List Char} {value : Float}
    (hspells : Spells run (.number value)) : ∀ c ∈ run, isNumeric c := by
  cases hspells with
  | integer _ hdigits => exact fun c hc => isNumeric_of_isDigit (hdigits c hc)
  | decimal hne hdigits hvalue =>
      exact (Spells.decimal hne hdigits hvalue).numeric.resolve_right fun hnone =>
        absurd (hnone '.' (by simp)) (by decide)
  | symbol hmem => simp [symbols] at hmem

theorem Spells.letters {run : List Char} {token : Token} (hspells : Spells run token) :
    (∀ c ∈ run, isLetter c) ∨ ∀ c ∈ run, isLetter c = false := by
  cases hspells with
  | name _ hletters => exact .inl hletters
  | power =>
      right
      rw [List.forall_mem_cons, List.forall_mem_singleton]
      decide
  | symbol hmem =>
      right
      intro c hc
      obtain rfl := List.mem_singleton.mp hc
      exact (symbol_plain hmem).2.2
  | integer _ hdigits => exact .inr fun c hc => isLetter_eq_false (hdigits c hc)
  | decimal _ hdigits =>
      right
      intro c hc
      rw [List.mem_append, List.mem_cons] at hc
      rcases hc with hc | rfl | hc
      · exact isLetter_eq_false (hdigits c (List.mem_append_left _ hc))
      · decide
      · exact isLetter_eq_false (hdigits c (List.mem_append_right _ hc))

theorem Spells.count_point_le {run : List Char} {token : Token} (hspells : Spells run token) :
    run.count '.' ≤ 1 := by
  cases hspells with
  | integer _ hdigits =>
      have hpoint : '.' ∉ _ := fun hmem => absurd (hdigits _ hmem) (by decide)
      rw [List.count_eq_zero.mpr hpoint]
      exact Nat.zero_le 1
  | @decimal whole fraction _ _ hdigits =>
      have hpoint : '.' ∉ whole ++ fraction := fun hmem => absurd (hdigits _ hmem) (by decide)
      have := List.count_eq_zero.mpr hpoint
      simp only [List.count_append, List.count_cons_self] at this ⊢
      omega
  | name _ hletters =>
      have hpoint : '.' ∉ _ := fun hmem => absurd (hletters _ hmem) (by decide)
      rw [List.count_eq_zero.mpr hpoint]
      exact Nat.zero_le 1
  | power => decide
  | symbol => exact List.count_le_length

/-- Past its first character, only a number, a name and the two asterisks go on. -/
theorem Spells.of_two {first second : Char} {run : List Char} {token : Token}
    (hspells : Spells (first :: second :: run) token) :
    isNumeric first ∨ isLetter first ∨ first = '*' ∧ second = '*' ∧ run = [] := by
  generalize hchars : first :: second :: run = characters at hspells
  have hfirst : first ∈ characters := by rw [← hchars]; exact List.mem_cons_self
  cases hspells with
  | integer _ hdigits => exact .inl (isNumeric_of_isDigit (hdigits first hfirst))
  | decimal hne hdigits hvalue =>
      exact .inl ((Spells.decimal hne hdigits hvalue).numeric.resolve_right (fun h => by
        simpa [isNumeric] using h '.' (by simp)) first hfirst)
  | name _ hletters => exact .inr (.inl (hletters first hfirst))
  | power => exact .inr (.inr (by simpa using hchars))
  | symbol => simp at hchars

theorem Spells.of_single {c : Char} {token : Token} (hspells : Spells [c] token) :
    isDigit c ∨ isLetter c ∨ (c, token) ∈ symbols := by
  generalize hchars : [c] = characters at hspells
  have hc : c ∈ characters := by rw [← hchars]; exact List.mem_cons_self
  cases hspells with
  | integer _ hdigits => exact .inl (hdigits c hc)
  | @decimal whole fraction _ hne _ =>
      have hlength := congrArg List.length hchars
      rw [List.length_singleton, List.length_append, List.length_cons] at hlength
      exact absurd (List.eq_nil_of_length_eq_zero (by rw [List.length_append]; omega)) hne
  | name _ hletters => exact .inr (.inl (hletters c hc))
  | power => simp at hchars
  | symbol hmem =>
      obtain rfl := List.singleton_inj.mp hchars
      exact .inr (.inr hmem)

theorem Longest.of_next {run rest : List Char}
    (hnext : ∀ next after more token, rest = next :: after → ¬Spells (run ++ next :: more) token) :
    Longest run rest := by
  intro longer token hprefix hspells
  by_cases hle : longer.length ≤ run.length
  · exact hle
  · exfalso
    obtain ⟨more, rfl⟩ : run <+: longer :=
      List.prefix_of_prefix_length_le (List.prefix_append run rest) hprefix (by omega)
    rw [List.prefix_append_right_inj] at hprefix
    cases more with
    | nil => simp at hle
    | cons next more =>
        obtain ⟨after, rfl⟩ := hprefix
        exact hnext next _ more token rfl hspells

/-- Of two longest runs at the front of the same characters, one that spells is the shorter. -/
theorem Longest.length_le {run rest other after : List Char} {token : Token}
    (hlongest : Longest run rest) (happend : other ++ after = run ++ rest)
    (hspells : Spells other token) : other.length ≤ run.length :=
  hlongest other token ⟨after, happend⟩ hspells

/-- No character at the front of `after` satisfies `p`. -/
def Stops (p : Char → Bool) (after : List Char) : Prop :=
  ∀ next more, after = next :: more → p next = false

theorem Longest.integer {run rest : List Char} {c : Char} (hc : c ∈ run) (hnumeric : isNumeric c)
    (hstops : Stops isNumeric rest) : Longest run rest := by
  refine .of_next fun next after more token hrest hspells => ?_
  have hnext := hstops next after hrest
  rcases hspells.numeric with hall | hnone
  · simp [hall next (by simp)] at hnext
  · simp [hnone c (List.mem_append_left _ hc)] at hnumeric

theorem Longest.decimal {run rest : List Char} (hpoint : '.' ∈ run)
    (hstops : Stops isDigit rest) : Longest run rest := by
  refine .of_next fun next after more token hrest hspells => ?_
  have hnext := hstops next after hrest
  rcases hspells.numeric with hall | hnone
  · have hsecond : next = '.' := by
      have := hall next (by simp)
      rw [isNumeric, hnext, Bool.false_or, beq_iff_eq] at this
      exact this
    have hcount := hspells.count_point_le
    have hfirst := List.count_pos_iff.mpr hpoint
    rw [List.count_append, hsecond, List.count_cons_self] at hcount
    omega
  · exact absurd (hnone '.' (List.mem_append_left _ hpoint)) (by decide)

theorem Longest.name {run rest : List Char} {c : Char} (hc : c ∈ run) (hletter : isLetter c)
    (hstops : Stops isLetter rest) : Longest run rest := by
  refine .of_next fun next after more token hrest hspells => ?_
  have hnext := hstops next after hrest
  rcases hspells.letters with hall | hnone
  · simp [hall next (by simp)] at hnext
  · simp [hnone c (List.mem_append_left _ hc)] at hletter

theorem Longest.power (rest : List Char) : Longest ['*', '*'] rest := by
  refine .of_next fun next after more token hrest hspells => ?_
  rcases hspells.of_two with h | h | ⟨-, -, h⟩
  · exact absurd h (by decide)
  · exact absurd h (by decide)
  · simp at h

theorem Longest.symbol {c : Char} {rest : List Char} (hnumeric : isNumeric c = false)
    (hletter : isLetter c = false) (hstar : c = '*' → rest.head? ≠ some '*') :
    Longest [c] rest := by
  refine .of_next fun next after more token hrest hspells => ?_
  rcases hspells.of_two with h | h | ⟨hc, hnext, -⟩
  · simp [hnumeric] at h
  · simp [hletter] at h
  · exact hstar hc (by rw [hrest, hnext]; rfl)

/-! ### The model's cut -/

theorem takeWhile_of_stops {p : Char → Bool} {run after : List Char} (hrun : ∀ c ∈ run, p c)
    (hstops : Stops p after) : (run ++ after).takeWhile p = run := by
  rw [List.takeWhile_append_of_pos hrun]
  cases after with
  | nil => simp
  | cons next more =>
      rw [List.takeWhile_cons_of_neg (by simp [hstops next more rfl]), List.append_nil]

theorem exists_span (p : Char → Bool) (characters : List Char) :
    ∃ run after, characters = run ++ after ∧ (∀ c ∈ run, p c) ∧ Stops p after := by
  refine ⟨characters.takeWhile p, characters.dropWhile p, List.takeWhile_append_dropWhile.symm,
    List.all_eq_true.mp List.all_takeWhile, ?_⟩
  intro next more hafter
  have hhead := List.head?_dropWhile_not p characters
  rw [hafter] at hhead
  simpa using hhead

theorem extentAfter_integer {first : Char} {whole after : List Char} (hfirst : isDigit first)
    (hwhole : ∀ c ∈ whole, isDigit c) (hstops : Stops isDigit after)
    (hpoint : ∀ fraction, after ≠ '.' :: fraction) :
    extentAfter first (whole ++ after) = whole.length := by
  rw [extentAfter]
  rw [if_pos hfirst]
  simp only [takeWhile_of_stops hwhole hstops, List.drop_left]

theorem extentAfter_decimal {first : Char} {whole fraction after : List Char}
    (hfirst : isDigit first) (hwhole : ∀ c ∈ whole, isDigit c)
    (hfraction : ∀ c ∈ fraction, isDigit c)
    (hstops : Stops isDigit after) :
    extentAfter first (whole ++ '.' :: (fraction ++ after)) =
      (whole ++ '.' :: fraction).length := by
  have hpoint : Stops isDigit ('.' :: (fraction ++ after)) := by
    intro next more hnext
    cases hnext
    exact isDigit_point
  rw [extentAfter]
  rw [if_pos hfirst]
  simp only [takeWhile_of_stops hwhole hpoint, List.drop_left,
    takeWhile_of_stops hfraction hstops, List.length_append, List.length_cons]
  omega

theorem extentAfter_point {fraction after : List Char} (hfraction : ∀ c ∈ fraction, isDigit c)
    (hstops : Stops isDigit after) :
    extentAfter '.' (fraction ++ after) = fraction.length := by
  rw [extentAfter]
  rw [if_neg (by decide), if_pos rfl, takeWhile_of_stops hfraction hstops]

theorem extentAfter_name {first : Char} {letters after : List Char} (hfirst : isLetter first)
    (hletters : ∀ c ∈ letters, isLetter c) (hstops : Stops isLetter after) :
    extentAfter first (letters ++ after) = letters.length := by
  have hdigit : ¬isDigit first := fun h => by simp [isLetter_eq_false h] at hfirst
  have hpoint : first ≠ '.' := fun heq => absurd hfirst (by rw [heq]; decide)
  rw [extentAfter]
  rw [if_neg hdigit, if_neg hpoint, if_pos hfirst, takeWhile_of_stops hletters hstops]

theorem extentAfter_other {first : Char} {rest : List Char} (hdigit : ¬isDigit first)
    (hpoint : first ≠ '.') (hletter : ¬isLetter first) :
    extentAfter first rest = if first = '*' ∧ rest.head? = some '*' then 1 else 0 := by
  rw [extentAfter]
  rw [if_neg hdigit, if_neg hpoint, if_neg hletter]
  simp

/--
The run that is cut off is the longest that spells a token, or a single character that no token
goes on with and that spells none.
-/
def CutsLongest (first : Char) (rest : List Char) : Prop :=
  Longest (first :: rest.take (extentAfter first rest)) (rest.drop (extentAfter first rest)) ∧
    ((∃ token, Spells (first :: rest.take (extentAfter first rest)) token) ∨
      extentAfter first rest = 0 ∧ ∀ token, ¬Spells [first] token)

theorem cutsLongest_digit {first : Char} (hdigit : isDigit first) (rest : List Char) :
    CutsLongest first rest := by
  obtain ⟨whole, after, rfl, hwhole, hstops⟩ := exists_span isDigit rest
  have hdigits : ∀ c ∈ first :: whole, isDigit c := List.forall_mem_cons.mpr ⟨hdigit, hwhole⟩
  by_cases hpoint : ∃ rest, after = '.' :: rest
  · obtain ⟨rest, rfl⟩ := hpoint
    obtain ⟨fraction, after, rfl, hfraction, hstops⟩ := exists_span isDigit rest
    rw [CutsLongest, extentAfter_decimal hdigit hwhole hfraction hstops, ← List.cons_append,
      ← List.append_assoc, List.take_left, List.drop_left, ← List.cons_append]
    exact ⟨.decimal (by simp) hstops,
      .inl (exists_spells_decimal (by simp) (List.forall_mem_append.mpr ⟨hdigits, hfraction⟩))⟩
  · have hnone : ∀ fraction, after ≠ '.' :: fraction := fun fraction h => hpoint ⟨fraction, h⟩
    rw [CutsLongest, extentAfter_integer hdigit hwhole hstops hnone,
      List.take_left, List.drop_left]
    refine ⟨.integer List.mem_cons_self (isNumeric_of_isDigit hdigit) ?_,
      .inl (exists_spells_integer (List.cons_ne_nil _ _) hdigits)⟩
    intro next more hafter
    have hnext : next ≠ '.' := fun heq => hpoint ⟨more, by rw [hafter, heq]⟩
    simp [isNumeric, hstops next more hafter, hnext]

theorem cutsLongest_point (rest : List Char) : CutsLongest '.' rest := by
  obtain ⟨fraction, after, rfl, hfraction, hstops⟩ := exists_span isDigit rest
  rw [CutsLongest, extentAfter_point hfraction hstops, List.take_left, List.drop_left]
  refine ⟨.decimal List.mem_cons_self hstops, ?_⟩
  by_cases hne : fraction = []
  · refine .inr ⟨by rw [hne]; rfl, fun token hspells => ?_⟩
    rcases hspells.of_single with h | h | h
    · exact absurd h (by decide)
    · exact absurd h (by decide)
    · exact (symbol_plain h).2.1 rfl
  · have hspells : ∃ token, Spells ([] ++ '.' :: fraction) token :=
      exists_spells_decimal hne hfraction
    exact .inl hspells

theorem cutsLongest_letter {first : Char} (hletter : isLetter first) (rest : List Char) :
    CutsLongest first rest := by
  obtain ⟨letters, after, rfl, hletters, hstops⟩ := exists_span isLetter rest
  rw [CutsLongest, extentAfter_name hletter hletters hstops, List.take_left, List.drop_left]
  exact ⟨.name List.mem_cons_self hletter hstops,
    .inl ⟨_, .name (List.cons_ne_nil _ _) (List.forall_mem_cons.mpr ⟨hletter, hletters⟩)⟩⟩

theorem cutsLongest_other {first : Char} (hdigit : ¬isDigit first) (hpoint : first ≠ '.')
    (hletter : ¬isLetter first) (rest : List Char) : CutsLongest first rest := by
  rw [CutsLongest, extentAfter_other hdigit hpoint hletter]
  by_cases hstars : first = '*' ∧ rest.head? = some '*'
  · obtain ⟨rfl, hhead⟩ := hstars
    cases rest with
    | nil => cases hhead
    | cons second rest =>
        obtain rfl := Option.some.inj hhead
        rw [if_pos ⟨rfl, rfl⟩]
        exact ⟨.power _, .inl ⟨_, .power⟩⟩
  rw [if_neg hstars, List.take_zero, List.drop_zero]
  constructor
  · refine .symbol ?_ (by simpa using hletter) fun hstar hhead => hstars ⟨hstar, hhead⟩
    simp [isNumeric, hdigit, hpoint]
  · cases htoken : tokenOfSymbol? first with
    | some token => exact .inl ⟨token, .symbol (tokenOfSymbol?_eq_some.mp htoken)⟩
    | none =>
        refine .inr ⟨rfl, fun token hspells => ?_⟩
        rcases hspells.of_single with h | h | h
        · exact hdigit h
        · exact hletter h
        · rw [tokenOfSymbol?_eq_some.mpr h] at htoken
          cases htoken

theorem cutsLongest (first : Char) (rest : List Char) : CutsLongest first rest := by
  by_cases hdigit : isDigit first
  · exact cutsLongest_digit hdigit rest
  by_cases hpoint : first = '.'
  · rw [hpoint]
    exact cutsLongest_point rest
  by_cases hletter : isLetter first
  · exact cutsLongest_letter hletter rest
  · exact cutsLongest_other hdigit hpoint hletter rest

/-! ### Cutting a text -/

def valuesOf (characters : List (Placed Char)) : List Char := characters.map (·.value)

theorem valuesOf_append (left right : List (Placed Char)) :
    valuesOf (left ++ right) = valuesOf left ++ valuesOf right :=
  List.map_append

/--
Characters cut from left to right into longest runs, and what the runs spell, each token at the
place of its first character.
-/
inductive Cuts : List (Placed Char) → List (Placed Token) → Prop
  | nil : Cuts [] []
  | cons {first : Placed Char} {others rest : List (Placed Char)} {token : Token}
      {readings : List (Placed Token)} (hspells : Spells (valuesOf (first :: others)) token)
      (hlongest : Longest (valuesOf (first :: others)) (valuesOf rest))
      (hrest : Cuts rest readings) :
    Cuts (first :: others ++ rest) (⟨token, first.position⟩ :: readings)

theorem Cuts.ne_finish {characters : List (Placed Char)} {readings : List (Placed Token)}
    (hcuts : Cuts characters readings) : ∀ reading ∈ readings, reading.value ≠ .finish := by
  induction hcuts with
  | nil => simp
  | cons hspells _ _ ih => exact List.forall_mem_cons.mpr ⟨hspells.ne_finish, ih⟩

theorem read_eq_ok {lexeme : Lexeme} {reading : Placed Token} :
    lexeme.read = .ok reading ↔
      lexeme.token? = some reading.value ∧ reading.position = lexeme.position := by
  rw [Lexeme.read]
  split
  · next token htoken =>
    rw [htoken, Except.ok.injEq, Option.some.injEq]
    constructor
    · intro hreading
      rw [← hreading]
      exact ⟨rfl, rfl⟩
    · intro hreading
      rw [hreading.1, ← hreading.2]
  · next htoken => simp [htoken]

theorem valuesOf_cons_take (first : Placed Char) (rest : List (Placed Char)) (k : Nat) :
    valuesOf (first :: rest.take k) = first.value :: (valuesOf rest).take k := by
  simp [valuesOf, List.map_take]

theorem valuesOf_drop (rest : List (Placed Char)) (k : Nat) :
    valuesOf (rest.drop k) = (valuesOf rest).drop k :=
  List.map_drop

theorem Spells.of_token? {first : Placed Char} {token : Token}
    (htoken : Lexeme.token? ⟨first, []⟩ = some token) : Spells [first.value] token := by
  have hchars : (⟨first, []⟩ : Lexeme).characters = [first.value] := rfl
  simp only [Lexeme.token?, hchars, List.any_cons, List.any_nil, Bool.or_false] at htoken
  split at htoken
  · next hdigit =>
    obtain rfl := Option.some.inj htoken
    have hdigits : ∀ c ∈ [first.value], isDigit c := by simpa using hdigit
    rw [numeralOf_integer hdigits]
    exact .integer (List.cons_ne_nil _ _) hdigits (isReading_whole _)
  split at htoken
  · next hletter =>
    obtain rfl := Option.some.inj htoken
    exact .name (List.cons_ne_nil _ _) (by simpa using hletter)
  rw [if_neg (by simp)] at htoken
  exact .symbol (tokenOfSymbol?_eq_some.mp htoken)

theorem length_valuesOf (characters : List (Placed Char)) :
    (valuesOf characters).length = characters.length :=
  List.length_map _

/-- The lexeme at the front is the longest run there that spells a token. -/
theorem eq_take_extent {first : Placed Char} {others rest : List (Placed Char)} {token : Token}
    (hspells : Spells (valuesOf (first :: others)) token)
    (hlongest : Longest (valuesOf (first :: others)) (valuesOf rest)) :
    others = (others ++ rest).take (extent first (others ++ rest)) ∧
      rest = (others ++ rest).drop (extent first (others ++ rest)) := by
  let cut := (others ++ rest).take (extent first (others ++ rest))
  let after := (others ++ rest).drop (extent first (others ++ rest))
  have happend : others ++ rest = cut ++ after := (List.take_append_drop _ _).symm
  have hvalues : valuesOf (first :: others) ++ valuesOf rest =
      valuesOf (first :: cut) ++ valuesOf after := by
    simp only [valuesOf, ← List.map_append, List.cons_append, happend]
  obtain ⟨hcut, hspelled⟩ := cutsLongest first.value (valuesOf (others ++ rest))
  rw [← valuesOf_cons_take, ← valuesOf_drop] at hcut
  have hle : others.length ≤ cut.length := by
    have hlength := hcut.length_le hvalues hspells
    rw [length_valuesOf, length_valuesOf] at hlength
    exact Nat.le_of_succ_le_succ hlength
  have hge : cut.length ≤ others.length := by
    rcases hspelled with ⟨token, hspells⟩ | ⟨hextent, hnone⟩
    · rw [← valuesOf_cons_take] at hspells
      have hlength := hlongest.length_le hvalues.symm hspells
      rw [length_valuesOf, length_valuesOf] at hlength
      exact Nat.le_of_succ_le_succ hlength
    · have hzero : cut.length = 0 := by
        show ((others ++ rest).take (extent first (others ++ rest))).length = 0
        rw [show extent first (others ++ rest) = 0 from hextent, List.take_zero, List.length_nil]
      omega
  exact List.append_inj happend (Nat.le_antisymm hle hge)

/-- The readings of the lexemes are those of the cut into longest runs, whenever there is one. -/
theorem mapM_read_eq_ok {characters : List (Placed Char)} {readings : List (Placed Token)} :
    (lexemes characters).mapM Lexeme.read = .ok readings ↔ Cuts characters readings := by
  fun_induction lexemes characters generalizing readings with
  | case1 =>
      rw [List.mapM_nil, pure_eq_ok]
      constructor
      · intro hnil
        rw [← hnil]
        exact .nil
      · intro hcuts
        cases hcuts
        rfl
  | case2 first rest ih =>
      simp only [List.mapM_cons, bind_eq_ok, pure_eq_ok, read_eq_ok, ih]
      constructor
      · rintro ⟨⟨token, position⟩, ⟨htoken, rfl⟩, readings, hreadings, rfl⟩
        obtain ⟨hlongest, hspelled⟩ := cutsLongest first.value (valuesOf rest)
        rw [← valuesOf_cons_take] at hlongest hspelled
        rw [← valuesOf_drop] at hlongest
        rw [← List.take_append_drop (extent first rest) rest, ← List.cons_append]
        refine .cons ?_ hlongest hreadings
        rcases hspelled with ⟨spelled, hspells⟩ | ⟨hextent, hnone⟩
        · have hsame : (Lexeme.ofFront first rest).token? = some spelled := Spells.token? hspells
          rw [htoken] at hsame
          obtain rfl : token = spelled := Option.some.inj hsame
          exact hspells
        · have hempty : Lexeme.ofFront first rest = ⟨first, []⟩ := by
            rw [Lexeme.ofFront, show extent first rest = 0 from hextent]
            rfl
          rw [hempty] at htoken
          exact absurd (Spells.of_token? htoken) (hnone token)
      · generalize hcharacters : first :: rest = characters
        intro hcuts
        cases hcuts with
        | nil => cases hcharacters
        | @cons head others after token readings hspells hlongest hrest =>
            rw [List.cons_append, List.cons.injEq] at hcharacters
            obtain ⟨rfl, rfl⟩ := hcharacters
            obtain ⟨hothers, hafter⟩ := eq_take_extent hspells hlongest
            have hfront : (Lexeme.ofFront first (others ++ after)).characters =
                valuesOf (first :: others) := by
              show valuesOf (first :: (others ++ after).take _) = _
              rw [← hothers]
            rw [← hfront] at hspells
            rw [← hafter]
            exact ⟨_, ⟨hspells.token?, rfl⟩, readings, hrest, rfl⟩

/-! ### Understood multiplications -/

/-- The neighbours that are multiplied when they are written side by side. -/
inductive Juxtaposed : Token → Token → Prop
  | numberName (value : Float) (letters : String) : Juxtaposed (.number value) (.name letters)
  | numberGroup (value : Float) : Juxtaposed (.number value) .openParen
  | groupNumber (value : Float) : Juxtaposed .closeParen (.number value)
  | groupGroup : Juxtaposed .closeParen .openParen

theorem impliesProduct_iff {left right : Token} :
    left.impliesProduct right = true ↔ Juxtaposed left right := by
  constructor
  · intro himplies
    unfold Token.impliesProduct at himplies
    split at himplies
    · exact .numberName _ _
    · exact .numberGroup _
    · exact .groupNumber _
    · exact .groupGroup
    · cases himplies
  · intro hjuxtaposed
    cases hjuxtaposed <;> rfl

instance (left right : Token) : Decidable (Juxtaposed left right) :=
  decidable_of_iff _ impliesProduct_iff

/-- What stands before a token because of the token before it. -/
def understood (left right : Placed Token) : List (Placed Token) :=
  if Juxtaposed left.value right.value then [⟨.operator .mul, right.position⟩] else []

theorem withProducts_of_apart {left right : Placed Token} {rest : List (Placed Token)}
    (hapart : ¬Juxtaposed left.value right.value) :
    withProducts (left :: right :: rest) = left :: withProducts (right :: rest) := by
  rw [withProducts, if_neg]
  rwa [impliesProduct_iff]

theorem withProducts_eq (readings : List (Placed Token)) :
    withProducts readings = readings.take 1 ++
      (readings.zip readings.tail).flatMap fun (left, right) =>
        understood left right ++ [right] := by
  fun_induction withProducts readings with
  | case1 left right rest hproduct ih =>
      rw [impliesProduct_iff] at hproduct
      simp [ih, understood, hproduct]
  | case2 left right rest hproduct ih =>
      rw [impliesProduct_iff] at hproduct
      simp [ih, understood, hproduct]
  | case3 tokens hshort =>
      match tokens, hshort with
      | [], _ => rfl
      | [_], _ => rfl
      | left :: right :: rest, hshort => exact absurd rfl (hshort left right rest)

/-! ### Main statement -/

theorem tokenize_eq_ok {text : String} {tokens : List (Placed Token)} :
    tokenize text = .ok tokens ↔ ∃ readings, Cuts (visibleCharacters text) readings ∧
      withProducts readings ++ [⟨.finish, text.length⟩] = tokens := by
  rw [tokenize]
  simp only [bind_eq_ok, pure_eq_ok, mapM_read_eq_ok]

end Waveform.Formula
