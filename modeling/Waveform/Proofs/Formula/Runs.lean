import Waveform.Proofs.Formula.Visible

/-!
# The runs of a text

A text is read as it stands, blanks included. From left to right it is cut into runs, each of which
starts with a character that is not blank and goes on as far as a token can be spelled without its
blanks. Cutting the text in this way is cutting what is visible of it, at the same places. Main
statement: `tokenize_reads_longest`.
-/

namespace Waveform.Formula

/--
Characters of a text, the first of them at `place`, cut from left to right into longest runs, and
what the runs spell without their blanks, each token at the place of its first character.
-/
inductive Runs : Nat → List Char → List (Placed Token) → Prop
  | blank {place : Nat} {blanks : List Char} (hblank : ∀ c ∈ blanks, Text.isBlank c) :
    Runs place blanks []
  | run {place : Nat} {blanks others rest : List Char} {first : Char} {token : Token}
      {readings : List (Placed Token)} (hblank : ∀ c ∈ blanks, Text.isBlank c)
      (hfirst : Text.isBlank first = false) (hspells : Spells (first :: visible others) token)
      (hlongest : Longest (first :: visible others) (visible rest))
      (hrest : Runs (place + blanks.length + (others.length + 1)) rest readings) :
    Runs place (blanks ++ (first :: others ++ rest)) (⟨token, place + blanks.length⟩ :: readings)

/-! ### Runs and what is visible of them -/

theorem Runs.cuts {place : Nat} {characters : List Char} {readings : List (Placed Token)}
    (hruns : Runs place characters readings) : Cuts (visibleFrom place characters) readings := by
  induction hruns with
  | blank hblank =>
    rw [(visibleFrom_eq_nil _).mpr hblank]
    exact .nil
  | @run place blanks others rest first token readings hblank hfirst hspells hlongest _ ih =>
    rw [visibleFrom_append, (visibleFrom_eq_nil _).mpr hblank, List.nil_append, visibleFrom_append,
      visibleFrom_cons hfirst]
    refine .cons ?_ ?_ ih
    · rw [valuesOf, List.map_cons, ← valuesOf, valuesOf_visibleFrom]
      exact hspells
    · rw [valuesOf, List.map_cons, ← valuesOf, valuesOf_visibleFrom, valuesOf_visibleFrom]
      exact hlongest

theorem Cuts.runs {place : Nat} {characters : List Char} {readings : List (Placed Token)}
    (hcuts : Cuts (visibleFrom place characters) readings) : Runs place characters readings := by
  generalize hvisible : visibleFrom place characters = items at hcuts
  induction hcuts generalizing place characters with
  | nil => exact .blank ((visibleFrom_eq_nil place).mp hvisible)
  | @cons first others rest token readings hspells hlongest _ ih =>
    obtain ⟨blanks, back, rfl, hblank, hfirst, hplace, hback⟩ := visibleFrom_eq_cons hvisible
    obtain ⟨middle, rest, rfl, rfl, rfl⟩ := visibleFrom_eq_append hback
    rw [valuesOf, List.map_cons, ← valuesOf, valuesOf_visibleFrom] at hspells hlongest
    rw [valuesOf_visibleFrom] at hlongest
    rw [← List.cons_append, hplace]
    refine .run hblank hfirst hspells hlongest (ih ?_)
    rw [hplace]
    congr 1
    omega

theorem cuts_iff_runs {text : String} {readings : List (Placed Token)} :
    Cuts (visibleCharacters text) readings ↔ Runs 0 text.toList readings :=
  ⟨Cuts.runs, Runs.cuts⟩

/-! ### Main statement -/

/--
A text is accepted exactly if it can be cut into longest runs that spell tokens. Then its tokens are
what the runs spell, a multiplication before each that is juxtaposed to the one before it, and the
end behind them, which is nowhere else.
-/
theorem tokenize_reads_longest (text : String) (tokens : List (Placed Token)) :
    tokenize text = .ok tokens ↔ ∃ readings, Runs 0 text.toList readings ∧
      (∀ reading ∈ readings, reading.value ≠ .finish) ∧
      tokens = readings.take 1 ++ (readings.zip readings.tail).flatMap
        (fun (left, right) => understood left right ++ [right]) ++ [⟨.finish, text.length⟩] := by
  rw [tokenize_eq_ok]
  constructor
  · intro htokens
    obtain ⟨readings, hcuts, rfl⟩ := htokens
    exact ⟨readings, cuts_iff_runs.mp hcuts, hcuts.ne_finish, by rw [withProducts_eq]⟩
  · intro htokens
    obtain ⟨readings, hruns, -, rfl⟩ := htokens
    exact ⟨readings, cuts_iff_runs.mpr hruns, by rw [withProducts_eq]⟩

end Waveform.Formula
