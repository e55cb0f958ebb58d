import Waveform.Proofs.Formula.Lexing

/-!
# One lexeme after another

Wherever the cutting of a text has arrived, either a longest run begins there that spells a token,
or no token begins with the character that stands there. The latter is so for the characters that
formulas are not written with, and for a point without a digit behind it. So a statement about the
lexemes of a text is proved for one run in front of others and for one such character. Main
statement: `lexemes_induction`.
-/

namespace Waveform.Formula

def isFormulaic (c : Char) : Bool := isDigit c || isLetter c || ".+-*/×÷^(),".toList.contains c

/-- No token begins with this character, in front of some others. -/
def Unspelled (c : Char) (rest : List Char) : Prop :=
  isFormulaic c = false ∨ c = '.' ∧ ∀ next ∈ rest.head?, isDigit next = false

/-! ### The characters of formulas -/

theorem isFormulaic_of_isDigit {c : Char} (hdigit : isDigit c) : isFormulaic c := by
  rw [isFormulaic, hdigit, Bool.true_or, Bool.true_or]

theorem isFormulaic_of_isLetter {c : Char} (hletter : isLetter c) : isFormulaic c := by
  rw [isFormulaic, hletter, Bool.or_true, Bool.true_or]

theorem isFormulaic_of_isNumeric {c : Char} (hnumeric : isNumeric c) : isFormulaic c := by
  rw [isNumeric, Bool.or_eq_true, beq_iff_eq] at hnumeric
  rcases hnumeric with hdigit | rfl
  · exact isFormulaic_of_isDigit hdigit
  · decide

theorem isFormulaic_of_symbol {c : Char} {token : Token} (hmem : (c, token) ∈ symbols) :
    isFormulaic c :=
  (by decide : ∀ symbol ∈ symbols, isFormulaic symbol.1) _ hmem

theorem Spells.formulaic {run : List Char} {token : Token} (hspells : Spells run token) :
    ∀ c ∈ run, isFormulaic c := by
  cases hspells with
  | integer _ hdigits => exact fun c hc => isFormulaic_of_isDigit (hdigits c hc)
  | decimal hne hdigits hvalue =>
      exact fun c hc =>
        isFormulaic_of_isNumeric ((Spells.decimal hne hdigits hvalue).numeric_of_number c hc)
  | name _ hletters => exact fun c hc => isFormulaic_of_isLetter (hletters c hc)
  | power =>
      rw [List.forall_mem_cons, List.forall_mem_singleton]
      decide
  | symbol hmem => exact List.forall_mem_singleton.mpr (isFormulaic_of_symbol hmem)

/-- A character of formulas spells a token by itself, unless it is a point. -/
theorem exists_spells_of_formulaic {c : Char} (hformulaic : isFormulaic c) (hpoint : c ≠ '.') :
    ∃ token, Spells [c] token := by
  rw [isFormulaic, Bool.or_eq_true, Bool.or_eq_true, List.contains_iff_mem] at hformulaic
  rcases hformulaic with (hdigit | hletter) | hmem
  · exact exists_spells_integer (List.cons_ne_nil _ _) (List.forall_mem_singleton.mpr hdigit)
  · exact ⟨_, .name (List.cons_ne_nil _ _) (List.forall_mem_singleton.mpr hletter)⟩
  · have hsymbols : ".+-*/×÷^(),".toList.all fun c => c == '.' || (tokenOfSymbol? c).isSome := by
      decide
    have hsymbol := List.all_eq_true.mp hsymbols c hmem
    rw [Bool.or_eq_true, beq_iff_eq] at hsymbol
    obtain ⟨token, htoken⟩ := Option.isSome_iff_exists.mp (hsymbol.resolve_left hpoint)
    exact ⟨token, .symbol (tokenOfSymbol?_eq_some.mp htoken)⟩

/-! ### Where no token begins -/

namespace Unspelled

theorem not_spells {c : Char} {rest : List Char} (h : Unspelled c rest) (token : Token) :
    ¬Spells [c] token := by
  intro hspells
  rcases h with hforeign | ⟨rfl, -⟩
  · simp [hspells.formulaic c List.mem_cons_self] at hforeign
  · rcases hspells.of_single with h | h | h
    · exact absurd h (by decide)
    · exact absurd h (by decide)
    · exact (symbol_plain h).2.1 rfl

theorem extentAfter_eq {c : Char} {rest : List Char} (h : Unspelled c rest) :
    extentAfter c rest = 0 := by
  rcases h with hforeign | ⟨rfl, hnext⟩
  · have hplain : ∀ {c'}, isFormulaic c' → c ≠ c' := by
      rintro c' hformulaic rfl
      simp [hformulaic] at hforeign
    rw [extentAfter_other, if_neg]
    · exact fun hstar => hplain (by decide) hstar.1
    · exact fun hdigit => hplain (isFormulaic_of_isDigit hdigit) rfl
    · exact hplain (by decide)
    · exact fun hletter => hplain (isFormulaic_of_isLetter hletter) rfl
  · have hstops : Stops isDigit rest := fun next more hrest => hnext next (by rw [hrest]; rfl)
    have hextent : extentAfter '.' ([] ++ rest) = 0 := extentAfter_point (by simp) hstops
    exact hextent

theorem token?_eq {first : Placed Char} {rest : List Char} (h : Unspelled first.value rest) :
    Lexeme.token? ⟨first, []⟩ = none := by
  cases htoken : Lexeme.token? ⟨first, []⟩ with
  | none => rfl
  | some token => exact absurd (Spells.of_token? htoken) (h.not_spells token)

end Unspelled

/-! ### The lexeme at the front -/

theorem lexemes_of_run {first : Placed Char} {others rest : List (Placed Char)} {token : Token}
    (hspells : Spells (valuesOf (first :: others)) token)
    (hlongest : Longest (valuesOf (first :: others)) (valuesOf rest)) :
    lexemes (first :: others ++ rest) = ⟨first, valuesOf others⟩ :: lexemes rest := by
  obtain ⟨hothers, hafter⟩ := eq_take_extent hspells hlongest
  rw [List.cons_append, lexemes_cons, Lexeme.ofFront, ← hothers, ← hafter]
  rfl

theorem token?_of_run {first : Placed Char} {others : List (Placed Char)} {token : Token}
    (hspells : Spells (valuesOf (first :: others)) token) :
    Lexeme.token? ⟨first, valuesOf others⟩ = some token := by
  have hcharacters : Spells (Lexeme.characters ⟨first, valuesOf others⟩) token := hspells
  exact hcharacters.token?

theorem lexemes_of_unspelled {first : Placed Char} {rest : List (Placed Char)}
    (h : Unspelled first.value (valuesOf rest)) :
    lexemes (first :: rest) = ⟨first, []⟩ :: lexemes rest := by
  have hextent : extent first rest = 0 := h.extentAfter_eq
  rw [lexemes_cons, Lexeme.ofFront, hextent]
  rfl

/-- Behind a run that is read, reading fails as it fails without that run. -/
theorem mapM_read_of_run {first : Placed Char} {others rest : List (Placed Char)} {token : Token}
    (hspells : Spells (valuesOf (first :: others)) token)
    (hlongest : Longest (valuesOf (first :: others)) (valuesOf rest))
    (fault : UnreadableCharacter) :
    (lexemes (first :: others ++ rest)).mapM Lexeme.read = .error fault ↔
      (lexemes rest).mapM Lexeme.read = .error fault := by
  have hread : Lexeme.read ⟨first, valuesOf others⟩ = .ok ⟨token, first.position⟩ :=
    read_eq_ok.mpr ⟨token?_of_run hspells, rfl⟩
  rw [lexemes_of_run hspells hlongest, List.mapM_cons, hread]
  cases (lexemes rest).mapM Lexeme.read <;> simp [bind, Except.bind, pure, Except.pure]

theorem mapM_read_of_unspelled {first : Placed Char} {rest : List (Placed Char)}
    (h : Unspelled first.value (valuesOf rest)) :
    (lexemes (first :: rest)).mapM Lexeme.read = .error ⟨first.value, first.position⟩ := by
  rw [lexemes_of_unspelled h, List.mapM_cons, Lexeme.read, h.token?_eq]
  rfl

theorem run_or_unspelled (first : Placed Char) (rest : List (Placed Char)) :
    (∃ token, Spells (valuesOf (first :: rest.take (extent first rest))) token ∧
      Longest (valuesOf (first :: rest.take (extent first rest)))
        (valuesOf (rest.drop (extent first rest)))) ∨
      Unspelled first.value (valuesOf rest) := by
  obtain ⟨hlongest, hspelled⟩ := cutsLongest first.value (valuesOf rest)
  rw [← valuesOf_cons_take] at hlongest hspelled
  rw [← valuesOf_drop] at hlongest
  rcases hspelled with ⟨token, hspells⟩ | ⟨hextent, hnone⟩
  · exact .inl ⟨token, hspells, hlongest⟩
  · right
    by_cases hpoint : first.value = '.'
    · refine .inr ⟨hpoint, fun next hnext => ?_⟩
      obtain ⟨more, hrest⟩ := List.head?_eq_some_iff.mp hnext
      rw [hpoint, hrest, extentAfter] at hextent
      cases hdigit : isDigit next with
      | false => rfl
      | true => simp [hdigit, isDigit_point] at hextent
    · left
      cases hformulaic : isFormulaic first.value with
      | false => rfl
      | true =>
          obtain ⟨token, hspells⟩ := exists_spells_of_formulaic hformulaic hpoint
          exact absurd hspells (hnone token)

/-- A statement about characters, proved by cutting off one lexeme after another. -/
@[elab_as_elim]
theorem lexemes_induction {motive : List (Placed Char) → Prop} (characters : List (Placed Char))
    (nil : motive [])
    (run : ∀ (first : Placed Char) (others rest : List (Placed Char)) (token : Token),
      Spells (valuesOf (first :: others)) token →
      Longest (valuesOf (first :: others)) (valuesOf rest) → motive rest →
      motive (first :: others ++ rest))
    (unspelled : ∀ (first : Placed Char) (rest : List (Placed Char)),
      Unspelled first.value (valuesOf rest) → motive rest → motive (first :: rest)) :
    motive characters := by
  fun_induction lexemes characters with
  | case1 => exact nil
  | case2 first rest ih =>
      rcases run_or_unspelled first rest with ⟨token, hspells, hlongest⟩ | h
      · have hall := run _ _ _ token hspells hlongest ih
        rwa [List.cons_append, List.take_append_drop] at hall
      · rw [show extent first rest = 0 from h.extentAfter_eq, List.drop_zero] at ih
        exact unspelled first rest h ih

end Waveform.Formula
