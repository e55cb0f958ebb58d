import Waveform.Proofs.Decimal.Shortest
import Waveform.Proofs.Formula.Scanning
import Waveform.Proofs.Formula.Visible

/-!
# The tokens of a written tree

A tree is written as pieces, each of which spells one token: names, symbols, and for a literal a
sign and digits. The blanks around operators are the only other characters. No piece could go on
with the characters behind it and no two neighbours are juxtaposed, so the tokens of the text are
those of the pieces. The digits of a literal are read as its magnitude again, because they are
enough to tell it from its neighbours. Main statement: `tokenize_render`.
-/

namespace Waveform.Formula

open Decimal (Content Numeral pack)

/-! ### Written numbers -/

theorem isDigit_toDigits {n : Nat} : ∀ c ∈ Nat.toDigits 10 n, isDigit c :=
  fun _ hc => Nat.isDigit_of_mem_toDigits (by decide) (by decide) hc

theorem isDigit_replicate_zero {count : Nat} : ∀ c ∈ List.replicate count '0', isDigit c := by
  intro c hc
  rw [List.eq_of_mem_replicate hc]
  decide

theorem isDigit_paddedDigits {width n : Nat} : ∀ c ∈ Decimal.paddedDigits width n, isDigit c :=
  List.forall_mem_append.mpr ⟨isDigit_replicate_zero, isDigit_toDigits⟩

theorem ofDigitChars_paddedDigits (width n : Nat) :
    Nat.ofDigitChars 10 (Decimal.paddedDigits width n) 0 = n := by
  rw [Decimal.paddedDigits, Nat.ofDigitChars_append, Nat.ofDigitChars_replicate_zero, Nat.mul_zero,
    Nat.ofDigitChars_ten_toDigits]

theorem lt_length_paddedDigits (places n : Nat) :
    places < (Decimal.paddedDigits (places + 1) n).length := by
  rw [Decimal.paddedDigits, List.length_append, List.length_replicate]
  omega

/-- A numeral that is written positionally spells what its value is read as. -/
theorem spells_positional {numeral : Numeral} {value : Float}
    (hvalue : Decimal.IsReading value numeral.value) :
    Spells numeral.positional (.number value) := by
  obtain ⟨coefficient, exponent⟩ := numeral
  rw [Numeral.value] at hvalue
  rw [Numeral.positional]
  simp only at hvalue ⊢
  have hlength := lt_length_paddedDigits (-exponent).toNat coefficient
  generalize hplaces : (-exponent).toNat = places at hlength ⊢
  split
  · next hzero =>
    have hdigits := List.forall_mem_append.mpr
      ⟨@isDigit_paddedDigits (places + 1) coefficient, @isDigit_replicate_zero exponent.toNat⟩
    have hwhole : (exponent.toNat : ℤ) = exponent := by omega
    refine .integer ?_ hdigits ?_
    · rw [← List.length_pos_iff, List.length_append]
      omega
    · rw [Nat.ofDigitChars_append, ofDigitChars_paddedDigits, Nat.ofDigitChars_replicate_zero]
      rw [← hwhole, zpow_natCast, mul_comm] at hvalue
      exact_mod_cast hvalue
  · next hplaced =>
    have hcoefficient := ofDigitChars_paddedDigits (places + 1) coefficient
    have hall := @isDigit_paddedDigits (places + 1) coefficient
    generalize Decimal.paddedDigits (places + 1) coefficient = digits at *
    have happend : digits.take (digits.length - places) ++
        digits.drop (digits.length - places) = digits := List.take_append_drop _ _
    have hexponent : exponent = -(digits.length - (digits.length - places) : ℕ) := by omega
    refine .decimal ?_ ?_ ?_
    · rw [happend, ← List.length_pos_iff]
      omega
    · rw [happend]
      exact hall
    · rw [happend, hcoefficient, List.length_drop]
      rwa [hexponent, zpow_neg, zpow_natCast, ← div_eq_mul_inv] at hvalue

/-! ### The pieces of a written tree -/

/-- What a token is written as, and the token. -/
abbrev Piece := List Char × Token

def textOf (pieces : List Piece) : List Char := pieces.flatMap (·.1)

/-- A sign and digits. A number that is not finite has no such form. -/
def numberPieces (value : Float) : List Piece :=
  match Content.ofFloat value with
  | .finite negative magnitude =>
    (if negative then [(['-'], .operator .sub)] else []) ++
      [(magnitude.shortest.positional, .number (pack magnitude false))]
  | _ => []

namespace Expr

def pieces : Expr → List Piece
  | literal value => numberPieces value
  | time => [(timeName.toList, .name timeName)]
  | call function argument =>
    (function.name.toList, .name function.name) :: (['('], .openParen) ::
      (argument.pieces ++ [([')'], .closeParen)])
  | binary operator left right =>
    (['('], .openParen) :: (left.pieces ++ (operator.symbol.toList, .operator operator) ::
      (right.pieces ++ [([')'], .closeParen)]))

def tokens (tree : Expr) : List Token := tree.pieces.map (·.2)

theorem tokens_call (function : Elementary) (argument : Expr) :
    (call function argument).tokens =
      .name function.name :: .openParen :: (argument.tokens ++ [.closeParen]) := by
  simp [tokens, pieces]

theorem tokens_binary (operator : Operator) (left right : Expr) :
    (binary operator left right).tokens =
      .openParen :: (left.tokens ++ .operator operator :: right.tokens ++ [.closeParen]) := by
  simp [tokens, pieces]

/-- All literals are finite numbers. -/
def Finite : Expr → Prop
  | literal value => value.isFinite = true
  | time => True
  | call _ argument => argument.Finite
  | binary _ left right => left.Finite ∧ right.Finite

instance decidableFinite : (tree : Expr) → Decidable tree.Finite
  | literal value => inferInstanceAs (Decidable (value.isFinite = true))
  | time => .isTrue trivial
  | call _ argument => decidableFinite argument
  | binary _ left right =>
    have := decidableFinite left
    have := decidableFinite right
    inferInstanceAs (Decidable (left.Finite ∧ right.Finite))

end Expr

theorem spells_positional_shortest {value : Float} {negative : Bool} {magnitude : Decimal.Magnitude}
    (hcontent : Content.ofFloat value = .finite negative magnitude) :
    Spells magnitude.shortest.positional (.number (pack magnitude false)) := by
  obtain ⟨hcanonical, -⟩ := Content.canonical_of_ofBits hcontent
  exact spells_positional
    ⟨magnitude, hcanonical, Decimal.Magnitude.captures_shortest hcanonical, rfl⟩

def Lettered (name : String) : Prop := name.toList ≠ [] ∧ name.toList.all Char.isAlpha

theorem lettered_name (function : Elementary) : Lettered function.name := by
  cases function <;> exact ⟨by decide, by decide⟩

theorem lettered_timeName : Lettered timeName := ⟨by decide, by decide⟩

theorem Lettered.isAlpha {name : String} (hname : Lettered name) :
    ∀ c ∈ name.toList, c.isAlpha :=
  List.all_eq_true.mp hname.2

theorem Lettered.spells {name : String} (hname : Lettered name) :
    Spells name.toList (.name name) := by
  have hplain : name.toList.flatMap (fun c => if c = 'π' then ['p', 'i'] else [c]) =
      name.toList.flatMap fun c => [c] := by
    apply List.flatMap_congr
    intro c hc
    have hplain : c ≠ 'π' := fun heq => absurd (hname.isAlpha c hc) (by rw [heq]; decide)
    rw [if_neg hplain]
  have hspells := Spells.name hname.1 fun c hc => by
    rw [isLetter, hname.isAlpha c hc, Bool.true_or]
  rwa [hplain, List.flatMap_singleton', String.ofList_toList] at hspells

theorem spells_symbol (operator : Operator) :
    Spells operator.symbol.toList (.operator operator) := by
  cases operator with
  | add => exact .symbol (c := '+') (by simp [symbols])
  | sub => exact .symbol (c := '-') (by simp [symbols])
  | mul => exact .symbol (c := '*') (by simp [symbols])
  | div => exact .symbol (c := '/') (by simp [symbols])
  | pow => exact .power

/-! ### The written characters -/

theorem textOf_append (left right : List Piece) :
    textOf (left ++ right) = textOf left ++ textOf right :=
  List.flatMap_append

theorem textOf_cons (piece : Piece) (pieces : List Piece) :
    textOf (piece :: pieces) = piece.1 ++ textOf pieces :=
  List.flatMap_cons

theorem visible_shortestPositional {value : Float} (hfinite : value.isFinite = true) :
    visible (Decimal.shortestPositional value).toList = textOf (numberPieces value) := by
  obtain ⟨negative, magnitude, hcontent⟩ := Decimal.isFinite_iff.mp hfinite
  have hdigits := (spells_positional_shortest hcontent).visible
  rw [Decimal.shortestPositional, Decimal.textWith, numberPieces, hcontent]
  simp only [String.toList_ofList, Decimal.withSign]
  cases negative with
  | false => simpa [textOf] using hdigits
  | true =>
      have hminus : visible ('-' :: magnitude.shortest.positional) =
          '-' :: visible magnitude.shortest.positional := List.filter_cons_of_pos (by decide)
      rw [if_pos rfl, hminus, hdigits]
      simp [textOf]

theorem visible_render {tree : Expr} (hfinite : tree.Finite) :
    visible tree.render.toList = textOf tree.pieces := by
  induction tree with
  | literal value => exact visible_shortestPositional hfinite
  | time => decide
  | call function argument ih =>
      have hname : visible function.name.toList = function.name.toList :=
        (lettered_name function).spells.visible
      have hopen : visible "(".toList = ['('] := by decide
      have hclose : visible ")".toList = [')'] := by decide
      simp only [Expr.render, Expr.pieces, String.toList_append, visible_append, hname, hopen,
        hclose, ih hfinite, textOf_cons, textOf_append]
      simp [textOf]
  | binary operator left right ihLeft ihRight =>
      have hsymbol : visible operator.symbol.toList = operator.symbol.toList :=
        (spells_symbol operator).visible
      have hopen : visible "(".toList = ['('] := by decide
      have hclose : visible ")".toList = [')'] := by decide
      have hblank : visible " ".toList = [] := by decide
      simp only [Expr.render, Expr.pieces, String.toList_append, visible_append, hsymbol, hopen,
        hclose, hblank, ihLeft hfinite.1, ihRight hfinite.2, textOf_cons, textOf_append]
      simp [textOf]

/-! ### The pieces are the lexemes -/

/-- Every piece is the longest run that spells its token, and none is juxtaposed to the next. -/
inductive Splits : List Piece → Prop
  | nil : Splits []
  | cons {run : List Char} {token : Token} {rest : List Piece} (hspells : Spells run token)
      (hlongest : Longest run (textOf rest))
      (hapart : ∀ next ∈ rest.head?, ¬Juxtaposed token next.2) (hrest : Splits rest) :
    Splits ((run, token) :: rest)

/-- Between readings that are not juxtaposed, nothing is understood. -/
theorem withProducts_of_isChain {readings : List (Placed Token)}
    (hapart : readings.IsChain fun left right => ¬Juxtaposed left.value right.value) :
    withProducts readings = readings := by
  induction hapart with
  | nil => rfl
  | singleton => rfl
  | cons_cons hnext _ ih => rw [withProducts_of_apart hnext, ih]

theorem Splits.scans {pieces : List Piece} (hsplits : Splits pieces) :
    Scans (textOf pieces) (pieces.map (·.2)) := by
  induction hsplits with
  | nil => exact .nil
  | cons hspells hlongest _ _ ih =>
      rw [textOf_cons, List.map_cons]
      exact .cons hspells hlongest ih

theorem Splits.apart {pieces : List Piece} (hsplits : Splits pieces) :
    (pieces.map (·.2)).IsChain fun left right => ¬Juxtaposed left right := by
  induction hsplits with
  | nil => exact .nil
  | @cons run token rest _ _ hapart _ ih =>
      rw [List.map_cons, List.isChain_cons]
      refine ⟨fun next hnext => ?_, ih⟩
      rw [List.head?_map, Option.mem_def, Option.map_eq_some_iff] at hnext
      obtain ⟨piece, hpiece, rfl⟩ := hnext
      exact hapart piece hpiece

theorem Splits.cuts {pieces : List Piece} (hsplits : Splits pieces)
    {characters : List (Placed Char)} (htext : valuesOf characters = textOf pieces) :
    ∃ readings, Cuts characters readings ∧ readings.map (·.value) = pieces.map (·.2) ∧
      withProducts readings = readings := by
  obtain ⟨readings, hcuts, hvalues⟩ := hsplits.scans.cuts htext
  refine ⟨readings, hcuts, hvalues, withProducts_of_isChain ?_⟩
  have hapart := hsplits.apart
  rwa [← hvalues, List.isChain_map] at hapart

/-- What may stand behind a written tree: nothing that its last piece could go on with. -/
structure Follows (rest : List Piece) : Prop where
  stopsNumeric : Stops isNumeric (textOf rest)
  stopsLetter : Stops isLetter (textOf rest)
  apart : ∀ left, ∀ next ∈ rest.head?, ¬Juxtaposed left next.2

theorem follows_nil : Follows [] where
  stopsNumeric := by
    intro next more hnext
    cases hnext
  stopsLetter := by
    intro next more hnext
    cases hnext
  apart := by
    intro left next hnext
    cases hnext

theorem follows_close (rest : List Piece) : Follows (([')'], .closeParen) :: rest) where
  stopsNumeric := by
    intro next more hnext
    cases hnext
    decide
  stopsLetter := by
    intro next more hnext
    cases hnext
    decide
  apart := by
    intro left next hnext hjuxtaposed
    cases hnext
    cases hjuxtaposed

theorem follows_operator (operator : Operator) (rest : List Piece) :
    Follows ((operator.symbol.toList, .operator operator) :: rest) where
  stopsNumeric := by
    intro next more hnext
    cases operator <;> cases hnext <;> decide
  stopsLetter := by
    intro next more hnext
    cases operator <;> cases hnext <;> decide
  apart := by
    intro left next hnext hjuxtaposed
    cases hnext
    cases hjuxtaposed

theorem star_not_first {tree : Expr} (hfinite : tree.Finite) (rest : List Piece) :
    (textOf (tree.pieces ++ rest)).head? ≠ some '*' := by
  cases tree with
  | literal value =>
      obtain ⟨negative, magnitude, hcontent⟩ := Decimal.isFinite_iff.mp hfinite
      have hspells := spells_positional_shortest hcontent
      rw [Expr.pieces, numberPieces, hcontent]
      cases negative with
      | false =>
          simp only [Bool.false_eq_true, if_false, List.nil_append, List.cons_append, textOf_cons]
          generalize magnitude.shortest.positional = run at hspells
          cases run with
          | nil => exact absurd rfl hspells.ne_nil
          | cons first others =>
              intro hfirst
              obtain rfl : first = '*' := Option.some.inj hfirst
              exact absurd (hspells.numeric_of_number '*' List.mem_cons_self) (by decide)
      | true => exact (by decide : some '-' ≠ some '*')
  | time => exact (by decide : some 't' ≠ some '*')
  | call function argument =>
      cases function <;> exact fun hfirst => absurd (Option.some.inj hfirst) (by decide)
  | binary operator left right => exact (by decide : some '(' ≠ some '*')

namespace Splits

theorem symbol {c : Char} {token : Token} {rest : List Piece} (hmem : (c, token) ∈ symbols)
    (hstar : c = '*' → (textOf rest).head? ≠ some '*')
    (hapart : ∀ next ∈ rest.head?, ¬Juxtaposed token next.2) (hrest : Splits rest) :
    Splits (([c], token) :: rest) := by
  obtain ⟨hdigit, hpoint, hletter⟩ := symbol_plain hmem
  have hnumeric : isNumeric c = false := by simp [isNumeric, hdigit, hpoint]
  exact .cons (.symbol hmem) (.symbol hnumeric hletter hstar) hapart hrest

theorem close {rest : List Piece} (hfollows : Follows rest) (hrest : Splits rest) :
    Splits (([')'], .closeParen) :: rest) :=
  symbol (by simp [symbols]) (fun hstar => absurd hstar (by decide)) (hfollows.apart _) hrest

theorem opened {rest : List Piece} (hrest : Splits rest) : Splits ((['('], .openParen) :: rest) :=
  symbol (by simp [symbols]) (fun hstar => absurd hstar (by decide))
    (fun next _ hjuxtaposed => by cases hjuxtaposed) hrest

theorem name {name : String} (hname : Lettered name) {rest : List Piece}
    (hstops : Stops isLetter (textOf rest)) (hrest : Splits rest) :
    Splits ((name.toList, .name name) :: rest) := by
  obtain ⟨c, hc⟩ := List.exists_mem_of_ne_nil _ hname.1
  have hletter : isLetter c := by rw [isLetter, hname.isAlpha c hc, Bool.true_or]
  exact .cons hname.spells (.name hc hletter hstops)
    (fun next _ hjuxtaposed => by cases hjuxtaposed) hrest

theorem operator (operator : Operator) {rest : List Piece}
    (hstar : (textOf rest).head? ≠ some '*') (hrest : Splits rest) :
    Splits ((operator.symbol.toList, .operator operator) :: rest) := by
  have hapart : ∀ next ∈ rest.head?, ¬Juxtaposed (.operator operator) next.2 :=
    fun next _ hjuxtaposed => by cases hjuxtaposed
  cases operator with
  | add => exact symbol (c := '+') (by simp [symbols]) (fun _ => hstar) hapart hrest
  | sub => exact symbol (c := '-') (by simp [symbols]) (fun _ => hstar) hapart hrest
  | mul => exact symbol (c := '*') (by simp [symbols]) (fun _ => hstar) hapart hrest
  | div => exact symbol (c := '/') (by simp [symbols]) (fun _ => hstar) hapart hrest
  | pow => exact .cons .power (.power _) hapart hrest

theorem number {value : Float} (hfinite : value.isFinite = true) {rest : List Piece}
    (hfollows : Follows rest) (hrest : Splits rest) : Splits (numberPieces value ++ rest) := by
  obtain ⟨negative, magnitude, hcontent⟩ := Decimal.isFinite_iff.mp hfinite
  have hspells := spells_positional_shortest hcontent
  obtain ⟨c, hc⟩ := List.exists_mem_of_ne_nil _ hspells.ne_nil
  have hdigits : Splits ((magnitude.shortest.positional, .number (pack magnitude false)) :: rest) :=
    .cons hspells (.integer hc (hspells.numeric_of_number c hc) hfollows.stopsNumeric)
      (hfollows.apart _) hrest
  rw [numberPieces, hcontent]
  cases negative with
  | false => exact hdigits
  | true =>
      exact symbol (by simp [symbols]) (fun hstar => absurd hstar (by decide))
        (fun next _ hjuxtaposed => by cases hjuxtaposed) hdigits

theorem pieces {tree : Expr} (hfinite : tree.Finite) {rest : List Piece} (hfollows : Follows rest)
    (hrest : Splits rest) : Splits (tree.pieces ++ rest) := by
  -- From the right to the left: each piece is put in front of pieces that are known to split.
  induction tree generalizing rest with
  | literal value => exact number hfinite hfollows hrest
  | time => exact name lettered_timeName hfollows.stopsLetter hrest
  | call function argument ih =>
      have hargument := (ih hfinite (follows_close rest) (hrest.close hfollows)).opened
      have hstops : Stops isLetter
          (textOf ((['('], .openParen) :: (argument.pieces ++ ([')'], .closeParen) :: rest))) := by
        intro next more hnext
        cases hnext
        decide
      simpa [Expr.pieces] using name (lettered_name function) hstops hargument
  | binary operator left right ihLeft ihRight =>
      have hright := ihRight hfinite.2 (follows_close rest) (hrest.close hfollows)
      have hoperator := Splits.operator operator (star_not_first hfinite.2 _) hright
      have hleft := (ihLeft hfinite.1 (follows_operator operator _) hoperator).opened
      simpa [Expr.pieces] using hleft

end Splits

/-! ### Main statement -/

theorem tokenize_render {tree : Expr} (hfinite : tree.Finite) :
    ∃ readings, tokenize tree.render = .ok (readings ++ [⟨.finish, tree.render.length⟩]) ∧
      readings.map (·.value) = tree.tokens := by
  have hsplits := Splits.pieces hfinite follows_nil .nil
  rw [List.append_nil] at hsplits
  have htext : valuesOf (visibleCharacters tree.render) = textOf tree.pieces :=
    (valuesOf_visibleCharacters _).trans (visible_render hfinite)
  obtain ⟨readings, hcuts, hvalues, hproducts⟩ := hsplits.cuts htext
  exact ⟨readings, tokenize_eq_ok.mpr ⟨readings, hcuts, by rw [hproducts]⟩, hvalues⟩

end Waveform.Formula
