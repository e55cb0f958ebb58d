import Mathlib.Data.List.Forall2
import Waveform.Proofs.Formula.Acceptance
import Waveform.Proofs.Formula.Correspondence
import Waveform.Proofs.Formula.Lexing

/-!
# Texts that are cut alike

Two texts are compared lexeme by lexeme. If the lexemes stand for the same tokens, one by one, then
the tokens of both texts are the same, understood multiplications included, and so is what they are
compiled to. If a lexeme stands for no token, it is to be the same character in both texts, and then
both are unreadable there. Where a lexeme stands is kept apart, as a relation between the places in
the two texts. Main statements: `tokensMatch_of_lexemes` and `TokensMatch.compileWith`.
-/

namespace Waveform.Formula

variable {corresponds : Nat → Nat → Prop}

structure Placed.Matches {α : Type} (corresponds : Nat → Nat → Prop) (item item' : Placed α) :
    Prop where
  value_eq : item.value = item'.value
  place : corresponds item.position item'.position

/-- Two lexemes that stand for the same token, or that are unreadable at the same character. -/
structure Lexeme.Matches (corresponds : Nat → Nat → Prop) (lexeme lexeme' : Lexeme) : Prop where
  token_eq : lexeme.token? = lexeme'.token?
  first_eq : lexeme.token? = none → lexeme.first.value = lexeme'.first.value
  place : corresponds lexeme.position lexeme'.position

theorem values_eq_of_matches {α : Type} {items items' : List (Placed α)}
    (h : List.Forall₂ (Placed.Matches corresponds) items items') :
    items.map (·.value) = items'.map (·.value) := by
  induction h with
  | nil => rfl
  | cons hitem _ ih => rw [List.map_cons, List.map_cons, hitem.value_eq, ih]

/-! ### Reading -/

theorem mapM_read_matches {all all' : List Lexeme}
    (h : List.Forall₂ (Lexeme.Matches corresponds) all all') :
    (∃ c place place', all.mapM Lexeme.read = .error ⟨c, place⟩ ∧
      all'.mapM Lexeme.read = .error ⟨c, place'⟩ ∧ corresponds place place') ∨
    ∃ readings readings', all.mapM Lexeme.read = .ok readings ∧
      all'.mapM Lexeme.read = .ok readings' ∧
      List.Forall₂ (Placed.Matches corresponds) readings readings' := by
  induction h with
  | nil => exact .inr ⟨[], [], rfl, rfl, .nil⟩
  | @cons lexeme lexeme' _ _ hlexeme _ ih =>
      rw [List.mapM_cons, List.mapM_cons, Lexeme.read, Lexeme.read, ← hlexeme.token_eq]
      cases htoken : lexeme.token? with
      | none =>
          rw [hlexeme.first_eq htoken]
          exact .inl ⟨_, _, _, rfl, rfl, hlexeme.place⟩
      | some token =>
          obtain ⟨c, place, place', herror, herror', hplace⟩ | ⟨_, _, hok, hok', hmatch⟩ := ih
          · rw [herror, herror']
            exact .inl ⟨c, place, place', rfl, rfl, hplace⟩
          · rw [hok, hok']
            exact .inr ⟨_, _, rfl, rfl, .cons ⟨rfl, hlexeme.place⟩ hmatch⟩

theorem withProducts_matches {readings readings' : List (Placed Token)}
    (h : List.Forall₂ (Placed.Matches corresponds) readings readings') :
    List.Forall₂ (Placed.Matches corresponds) (withProducts readings) (withProducts readings') := by
  fun_induction withProducts readings generalizing readings' with
  | case1 left right rest hproduct ih =>
      obtain _ | ⟨hleft, _ | ⟨hright, hrest⟩⟩ := h
      rw [withProducts, ← hleft.value_eq, ← hright.value_eq, if_pos hproduct]
      exact .cons hleft (.cons ⟨rfl, hright.place⟩ (ih (.cons hright hrest)))
  | case2 left right rest hproduct ih =>
      obtain _ | ⟨hleft, _ | ⟨hright, hrest⟩⟩ := h
      rw [withProducts, ← hleft.value_eq, ← hright.value_eq, if_neg hproduct]
      exact .cons hleft (ih (.cons hright hrest))
  | case3 readings hshort =>
      obtain _ | ⟨hleft, _ | ⟨hright, hrest⟩⟩ := h
      · exact .nil
      · exact .cons hleft .nil
      · exact absurd rfl (hshort _ _ _)

/-! ### Tokens -/

/--
Both texts are unreadable at the same character, or both have the same tokens, in front of their
own ends.
-/
def TokensMatch (corresponds : Nat → Nat → Prop) (text text' : String) : Prop :=
  (∃ c place place', tokenize text = .error ⟨c, place⟩ ∧ tokenize text' = .error ⟨c, place'⟩ ∧
    corresponds place place') ∨
  ∃ tokens tokens', tokenize text = .ok (tokens ++ [⟨.finish, text.length⟩]) ∧
    tokenize text' = .ok (tokens' ++ [⟨.finish, text'.length⟩]) ∧
    List.Forall₂ (Placed.Matches corresponds) tokens tokens'

theorem tokensMatch_of_lexemes {text text' : String}
    (h : List.Forall₂ (Lexeme.Matches corresponds) (lexemes (visibleCharacters text))
      (lexemes (visibleCharacters text'))) : TokensMatch corresponds text text' := by
  obtain ⟨c, place, place', herror, herror', hplace⟩ | ⟨readings, readings', hok, hok', hmatch⟩ :=
    mapM_read_matches h
  · refine .inl ⟨c, place, place', ?_, ?_, hplace⟩
    · rw [tokenize, herror]
      rfl
    · rw [tokenize, herror']
      rfl
  · refine .inr ⟨_, _, ?_, ?_, withProducts_matches hmatch⟩
    · rw [tokenize, hok]
      rfl
    · rw [tokenize, hok']
      rfl

theorem alike_of_matches {tokens tokens' : List (Placed Token)}
    (h : List.Forall₂ (Placed.Matches corresponds) tokens tokens') (loose : Bool) :
    Alike corresponds loose tokens tokens' := by
  induction h generalizing loose with
  | nil => exact .nil
  | @cons token token' _ _ htoken _ ih =>
      obtain ⟨value, place⟩ := token
      obtain ⟨value', place'⟩ := token'
      obtain rfl : value = value' := htoken.value_eq
      exact .cons htoken.place (ih _)

/-! ### Programs -/

/-- The same cause of rejection, at places that correspond. -/
inductive FormulaError.Matches (corresponds : Nat → Nat → Prop) :
    FormulaError → FormulaError → Prop
  | unreadable (c : Char) {place place' : Nat} (hplace : corresponds place place') :
      Matches corresponds (.unreadable ⟨c, place⟩) (.unreadable ⟨c, place'⟩)
  | rejected {error error' : ParseError} (h : error.Alike corresponds error') :
      Matches corresponds (.rejected error) (.rejected error')

theorem FormulaError.Matches.imp {corresponds' : Nat → Nat → Prop} {error error' : FormulaError}
    (h : error.Matches corresponds error')
    (himp : ∀ place place', corresponds place place' → corresponds' place place') :
    error.Matches corresponds' error' := by
  cases h with
  | unreadable c hplace => exact .unreadable c (himp _ _ hplace)
  | rejected h =>
      cases h with
      | malformed fault hplace => exact .rejected (.malformed fault (himp _ _ hplace))
      | unplaced hunplaced => exact .rejected (.unplaced hunplaced)

/-- Both texts are compiled to the same tree, or both are rejected for the same cause. -/
def CompilesAlike (corresponds : Nat → Nat → Prop) (maxNodes : Nat) (text text' : String) : Prop :=
  (∃ program program', compileWith text maxNodes = .ok program ∧
    compileWith text' maxNodes = .ok program' ∧ program.root = program'.root ∧
    program.nodeCount = program'.nodeCount) ∨
  ∃ error error', compileWith text maxNodes = .error error ∧
    compileWith text' maxNodes = .error error' ∧ error.Matches corresponds error'

theorem CompilesAlike.imp {corresponds' : Nat → Nat → Prop} {maxNodes : Nat} {text text' : String}
    (h : CompilesAlike corresponds maxNodes text text')
    (himp : ∀ place place', corresponds place place' → corresponds' place place') :
    CompilesAlike corresponds' maxNodes text text' := by
  apply h.imp_right
  intro hrejected
  obtain ⟨error, error', hfail, hfail', hmatch⟩ := hrejected
  exact ⟨error, error', hfail, hfail', hmatch.imp himp⟩

/-- Places that correspond, or the ends of the two texts. -/
def OrEnds (corresponds : Nat → Nat → Prop) (text text' : String) (place place' : Nat) : Prop :=
  corresponds place place' ∨ place = text.length ∧ place' = text'.length

theorem TokensMatch.compileWith {text text' : String} (h : TokensMatch corresponds text text')
    (maxNodes : Nat) : CompilesAlike (OrEnds corresponds text text') maxNodes text text' := by
  obtain ⟨c, place, place', herror, herror', hplace⟩ | ⟨tokens, tokens', hok, hok', hmatch⟩ := h
  · refine .inr ⟨_, _, ?_, ?_, .unreadable c (.inl hplace)⟩
    · rw [Formula.compileWith, herror]
    · rw [Formula.compileWith, herror']
  have hends : OrEnds corresponds text text' text.length text'.length := .inr ⟨rfl, rfl⟩
  have hall : List.Forall₂ (Placed.Matches (OrEnds corresponds text text'))
      (tokens ++ [⟨.finish, text.length⟩]) (tokens' ++ [⟨.finish, text'.length⟩]) :=
    List.rel_append (hmatch.imp fun _ _ hitem => ⟨hitem.value_eq, .inl hitem.place⟩)
      (.cons ⟨rfl, hends⟩ .nil)
  have hparse := Parser.parse_alike (alike_of_matches hall false) (by simpa using hends) maxNodes
  rw [CompilesAlike, compileWith_of_tokenize hok, compileWith_of_tokenize hok', Program.ofTokens,
    Program.ofTokens]
  generalize Parser.parse _ maxNodes = outcome at hparse
  generalize Parser.parse _ maxNodes = outcome' at hparse
  cases hparse with
  | @ok result result' h =>
      subst h
      exact .inl ⟨⟨text, result.1, result.2⟩, ⟨text', result.1, result.2⟩, rfl, rfl, rfl, rfl⟩
  | error h => exact .inr ⟨_, _, rfl, rfl, .rejected h⟩

end Waveform.Formula
