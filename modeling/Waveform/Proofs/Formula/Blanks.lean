import Waveform.Proofs.Formula.Matching
import Waveform.Proofs.Formula.Visible

/-!
# Blanks are ignored

Two texts that show the same characters have the same lexemes, wherever blanks stand in one or the
other: within numbers, within names, between the two asterisks of a power. Only places differ. A
place in one text corresponds to the place in the other where the same visible character stands,
after the same visible characters. Main statement: `compileWith_ignores_blanks`.
-/

namespace Waveform.Formula

/-- The same visible character stands at the two places, after the same visible characters. -/
def SamePlace (text text' : String) (place place' : Nat) : Prop :=
  ∃ c, Text.isBlank c = false ∧ text.toList[place]? = some c ∧ text'.toList[place']? = some c ∧
    visible (text.toList.take place) = visible (text'.toList.take place')

theorem getElem_visibleCharacters {text : String} {i : Nat}
    (hi : i < (visibleCharacters text).length) :
    Text.isBlank (visibleCharacters text)[i].value = false ∧
      text.toList[(visibleCharacters text)[i].position]? =
        some (visibleCharacters text)[i].value ∧
      visible (text.toList.take (visibleCharacters text)[i].position) =
        (visible text.toList).take i := by
  have hsplit : visibleCharacters text = (visibleCharacters text).take i ++
      (visibleCharacters text)[i] :: (visibleCharacters text).drop (i + 1) := by
    rw [List.getElem_cons_drop, List.take_append_drop]
  obtain ⟨front, back, htext, hlength, hvisible, hfront, -⟩ := exists_split hsplit
  refine ⟨hvisible, ?_, ?_⟩
  · rw [htext, ← hlength, List.getElem?_append_right (Nat.le_refl _), Nat.sub_self]
    rfl
  · have hbefore := valuesOf_visibleCharacters (String.ofList front)
    rw [hfront, String.toList_ofList, valuesOf, List.map_take, ← valuesOf,
      valuesOf_visibleCharacters] at hbefore
    rw [hbefore, ← hlength, htext, List.take_left]

theorem visibleCharacters_matches {text text' : String}
    (hvisible : visible text.toList = visible text'.toList) :
    List.Forall₂ (Placed.Matches (SamePlace text text')) (visibleCharacters text)
      (visibleCharacters text') := by
  have hvalues : valuesOf (visibleCharacters text) = valuesOf (visibleCharacters text') := by
    rw [valuesOf_visibleCharacters, valuesOf_visibleCharacters, hvisible]
  have hlength : (visibleCharacters text).length = (visibleCharacters text').length := by
    rw [← length_valuesOf, hvalues, length_valuesOf]
  rw [List.forall₂_iff_get]
  refine ⟨hlength, fun i hi hi' => ?_⟩
  obtain ⟨hplain, hhere, hbefore⟩ := getElem_visibleCharacters hi
  obtain ⟨-, hhere', hbefore'⟩ := getElem_visibleCharacters hi'
  have hvalue : (visibleCharacters text)[i].value = (visibleCharacters text')[i].value := by
    have hboth := congrArg (·[i]?) hvalues
    simpa [valuesOf, hi, hi'] using hboth
  refine ⟨hvalue, _, hplain, hhere, hvalue ▸ hhere', ?_⟩
  exact hbefore.trans (hvisible ▸ hbefore'.symm)

/-- Lexemes are cut by what the characters are, not by where they stand. -/
theorem lexemes_matches {corresponds : Nat → Nat → Prop}
    {characters characters' : List (Placed Char)}
    (h : List.Forall₂ (Placed.Matches corresponds) characters characters') :
    List.Forall₂ (Lexeme.Matches corresponds) (lexemes characters) (lexemes characters') := by
  fun_induction lexemes characters generalizing characters' with
  | case1 =>
      cases h
      rw [lexemes_nil]
      exact .nil
  | case2 first rest ih =>
      obtain _ | @⟨_, first', _, rest', hfirst, hrest⟩ := h
      have hvalues := values_eq_of_matches hrest
      have hextent : extent first rest = extent first' rest' := by
        rw [extent, extent, hfirst.value_eq, hvalues]
      have hcharacters : (Lexeme.ofFront first rest).characters =
          (Lexeme.ofFront first' rest').characters := by
        simp only [Lexeme.characters, Lexeme.ofFront, List.map_take, hfirst.value_eq, hvalues,
          hextent]
      rw [lexemes_cons, ← hextent]
      refine .cons ⟨?_, fun _ => hfirst.value_eq, hfirst.place⟩ (ih (List.forall₂_drop _ hrest))
      have hvalue : (Lexeme.ofFront first rest).first.value =
        (Lexeme.ofFront first' rest').first.value := hfirst.value_eq
      rw [Lexeme.token?, Lexeme.token?, hcharacters, hvalue]

/-! ### Main statement -/

/--
Blanks matter to places only. Texts that show the same characters have the same tokens, or are
unreadable at the same character; and for every limit of nodes they are compiled to the same tree
with the same number of nodes, or rejected for the same reason at the same character.
-/
theorem compileWith_ignores_blanks {text text' : String}
    (hvisible : visible text.toList = visible text'.toList) :
    TokensMatch (SamePlace text text') text text' ∧
      ∀ maxNodes, CompilesAlike (OrEnds (SamePlace text text') text text') maxNodes text text' := by
  have hmatch := tokensMatch_of_lexemes (lexemes_matches (visibleCharacters_matches hvisible))
  exact ⟨hmatch, hmatch.compileWith⟩

/-- A power whose asterisks are apart, in a call whose name is apart. -/
theorem compileWith_ignores_blanks_apart :
    visible "si n(2* *t )".toList = visible "sin(2**t)".toList ∧
      TokensMatch (SamePlace "si n(2* *t )" "sin(2**t)") "si n(2* *t )" "sin(2**t)" ∧
      ∀ maxNodes, CompilesAlike (OrEnds (SamePlace "si n(2* *t )" "sin(2**t)") "si n(2* *t )"
        "sin(2**t)") maxNodes "si n(2* *t )" "sin(2**t)" := by
  have hvisible : visible "si n(2* *t )".toList = visible "sin(2**t)".toList := by decide
  exact ⟨hvisible, compileWith_ignores_blanks hvisible⟩

end Waveform.Formula
