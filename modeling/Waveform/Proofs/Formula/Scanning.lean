import Waveform.Proofs.Formula.Lexing

/-!
# Where runs end

A run of characters is the longest one at its place as soon as the one character behind it does not
go on with it, because a longer spelling would have gone on by one character first. So texts that
have been cut can be put together wherever a character belongs to no run but its own, like a
parenthesis. Main statements: `longest_iff` and `Scans.append`.
-/

namespace Waveform.Formula

/-! ### The character behind a run -/

theorem Spells.concat {run more : List Char} {next : Char} {token longer : Token}
    (hspells : Spells run token) (hlonger : Spells (run ++ next :: more) longer) :
    ∃ token', Spells (run ++ [next]) token' := by
  cases hspells with
  | integer hne hdigits =>
      obtain ⟨c, hc⟩ := List.exists_mem_of_ne_nil _ hne
      have hall := hlonger.numeric.resolve_right fun hnone => by
        simpa [hnone c (List.mem_append_left _ hc)] using isNumeric_of_isDigit (hdigits c hc)
      have hnext : isDigit next ∨ next = '.' := by
        simpa [isNumeric] using hall next (by simp)
      rcases hnext with hdigit | rfl
      · refine exists_spells_integer (by simp) ?_
        rw [List.forall_mem_append, List.forall_mem_singleton]
        exact ⟨hdigits, hdigit⟩
      · exact exists_spells_decimal (by simpa using hne) (by simpa using hdigits)
  | @decimal whole fraction _ hne hdigits =>
      have hall := hlonger.numeric.resolve_right fun hnone =>
        absurd (hnone '.' (by simp)) (by decide)
      have hcount := hlonger.count_point_le
      have hnext : isDigit next := by
        have hnumeric := hall next (by simp)
        rw [isNumeric, Bool.or_eq_true, beq_iff_eq] at hnumeric
        refine hnumeric.resolve_right fun hpoint => ?_
        simp only [List.count_append, hpoint, List.count_cons_self] at hcount
        omega
      have hall : ∀ c ∈ whole ++ (fraction ++ [next]), isDigit c := by
        rw [← List.append_assoc, List.forall_mem_append, List.forall_mem_singleton]
        exact ⟨hdigits, hnext⟩
      rw [List.append_assoc, List.cons_append]
      exact exists_spells_decimal (by simp) hall
  | name hne hletters =>
      obtain ⟨c, hc⟩ := List.exists_mem_of_ne_nil _ hne
      have hall := hlonger.letters.resolve_right fun hnone => by
        simpa [hnone c (List.mem_append_left _ hc)] using hletters c hc
      refine ⟨_, .name (by simp) ?_⟩
      rw [List.forall_mem_append, List.forall_mem_singleton]
      exact ⟨hletters, hall next (by simp)⟩
  | power =>
      rcases hlonger.of_two with h | h | ⟨-, -, h⟩
      · exact absurd h (by decide)
      · exact absurd h (by decide)
      · cases h
  | symbol hmem =>
      obtain ⟨hdigit, hpoint, hletter⟩ := symbol_plain hmem
      rcases hlonger.of_two with h | h | ⟨-, -, rfl⟩
      · simp [isNumeric, hdigit, hpoint] at h
      · simp [hletter] at h
      · exact ⟨longer, hlonger⟩

/-- Whether a run is the longest one is seen from the character behind it. -/
theorem longest_iff {run rest : List Char} {token : Token} (hspells : Spells run token) :
    Longest run rest ↔ ∀ next ∈ rest.head?, ∀ longer, ¬Spells (run ++ [next]) longer := by
  constructor
  · intro hlongest next hnext longer hlonger
    obtain ⟨after, rfl⟩ := List.head?_eq_some_iff.mp hnext
    have hlength := hlongest _ longer ⟨after, by simp⟩ hlonger
    rw [List.length_append, List.length_singleton] at hlength
    omega
  · intro hnone
    refine .of_next fun next after more longer hrest hlonger => ?_
    obtain ⟨token', hspells'⟩ := hspells.concat hlonger
    exact hnone next (by rw [hrest]; rfl) token' hspells'

/-- A character that belongs to no run but its own. -/
structure Sealing (c : Char) : Prop where
  numeric : isNumeric c = false
  letter : isLetter c = false
  ne_star : c ≠ '*'

theorem sealing_open : Sealing '(' := ⟨by decide, by decide, by decide⟩

theorem sealing_close : Sealing ')' := ⟨by decide, by decide, by decide⟩

theorem Sealing.not_spells {c : Char} (hseal : Sealing c) {run : List Char} (hne : run ≠ [])
    (token : Token) : ¬Spells (run ++ [c]) token := by
  intro hspells
  have hlast : c ∈ run ++ [c] := by simp
  generalize hchars : run ++ [c] = characters at hspells hlast
  cases hspells with
  | integer _ hdigits =>
      exact absurd (isNumeric_of_isDigit (hdigits c hlast)) (by simp [hseal.numeric])
  | decimal hne hdigits hvalue =>
      exact absurd ((Spells.decimal hne hdigits hvalue).numeric_of_number c hlast)
        (by simp [hseal.numeric])
  | name _ hletters => exact absurd (hletters c hlast) (by simp [hseal.letter])
  | power => exact hseal.ne_star (by simpa using hlast)
  | symbol =>
      have hlength := congrArg List.length hchars
      simp [hne] at hlength

/-! ### Runs without places -/

/-- The tokens of characters that are cut into longest runs, whatever their places. -/
inductive Scans : List Char → List Token → Prop
  | nil : Scans [] []
  | cons {run rest : List Char} {token : Token} {words : List Token}
      (hspells : Spells run token) (hlongest : Longest run rest) (hrest : Scans rest words) :
      Scans (run ++ rest) (token :: words)

theorem Cuts.scans {characters : List (Placed Char)} {readings : List (Placed Token)}
    (hcuts : Cuts characters readings) :
    Scans (valuesOf characters) (readings.map (·.value)) := by
  induction hcuts with
  | nil => exact .nil
  | cons hspells hlongest _ ih =>
      rw [valuesOf, List.map_append, List.map_cons]
      exact .cons hspells hlongest ih

theorem Scans.cuts {run : List Char} {words : List Token} (hscans : Scans run words) :
    ∀ {characters : List (Placed Char)}, valuesOf characters = run →
      ∃ readings, Cuts characters readings ∧ readings.map (·.value) = words := by
  induction hscans with
  | nil =>
      intro characters hvalues
      rw [List.map_eq_nil_iff.mp hvalues]
      exact ⟨[], .nil, rfl⟩
  | cons hspells hlongest _ ih =>
      intro characters hvalues
      obtain ⟨front, after, rfl, hfront, hafter⟩ := List.map_eq_append_iff.mp hvalues
      cases front with
      | nil => exact absurd hfront.symm hspells.ne_nil
      | cons first others =>
          obtain ⟨readings, hcuts, hwords⟩ := ih hafter
          rw [← hfront] at hspells hlongest
          rw [← hafter] at hlongest
          exact ⟨_, .cons hspells hlongest hcuts, by rw [List.map_cons, hwords]⟩

namespace Scans

/-- Two cut texts stay cut if the second begins with a sealing character. -/
theorem append {left right : List Char} {words words' : List Token} (hleft : Scans left words)
    (hright : Scans right words') (hseal : ∀ c ∈ right.head?, Sealing c) :
    Scans (left ++ right) (words ++ words') := by
  induction hleft with
  | nil => exact hright
  | @cons run rest token words hspells hlongest _ ih =>
      rw [List.append_assoc]
      refine .cons hspells ((longest_iff hspells).mpr fun next hnext => ?_) ih
      rw [List.head?_append, Option.mem_def, Option.or_eq_some_iff] at hnext
      rcases hnext with hnext | ⟨-, hnext⟩
      · exact (longest_iff hspells).mp hlongest next hnext
      · exact (hseal next hnext).not_spells hspells.ne_nil

theorem sealed {run rest : List Char} {token : Token} {words : List Token}
    (hspells : Spells run token) (hrest : Scans rest words)
    (hseal : ∀ c ∈ rest.head?, Sealing c) : Scans (run ++ rest) (token :: words) := by
  refine .cons hspells ((longest_iff hspells).mpr fun next hnext => ?_) hrest
  exact (hseal next hnext).not_spells hspells.ne_nil

theorem symbol {c : Char} {token : Token} {rest : List Char} {words : List Token}
    (hmem : (c, token) ∈ symbols) (hstar : c ≠ '*') (hrest : Scans rest words) :
    Scans (c :: rest) (token :: words) := by
  obtain ⟨hdigit, hpoint, hletter⟩ := symbol_plain hmem
  have hnumeric : isNumeric c = false := by simp [isNumeric, hdigit, hpoint]
  have hspells : Spells [c] token := .symbol hmem
  exact .cons hspells (.symbol hnumeric hletter fun heq => absurd heq hstar) hrest

theorem group {inner rest : List Char} {words words' : List Token} (hinner : Scans inner words)
    (hrest : Scans rest words') :
    Scans ('(' :: (inner ++ ')' :: rest)) (.openParen :: (words ++ .closeParen :: words')) := by
  have hclosed := hrest.symbol (by decide : (')', Token.closeParen) ∈ symbols) (by decide)
  refine (hinner.append hclosed ?_).symbol (by decide) (by decide)
  intro c hc
  obtain rfl : ')' = c := Option.some.inj hc
  exact sealing_close

end Scans

end Waveform.Formula
