import Mathlib.Data.List.Chain
import Waveform.Proofs.Formula.Cutting
import Waveform.Proofs.Formula.Matching
import Waveform.Proofs.Formula.Scanning
import Waveform.Proofs.Formula.Visible

/-!
# Typographic symbols

The Greek letter and the signs of printed formulas have plain spellings: `pi`, `*`, `/` and `**`. A
text that is respelled with them has the same tokens, because each run of it is respelled to a run
that spells the same token and that nothing behind it goes on with. The asterisk is the exception,
since two of them are a power: a product sign must not come to stand before an asterisk that was
apart from it. Main statement: `compileWith_respelled`.
-/

namespace Waveform.Formula

def plainSpelling : Char → List Char
  | 'π' => ['p', 'i']
  | '×' => ['*']
  | '÷' => ['/']
  | '^' => ['*', '*']
  | c => [c]

def plain (characters : List Char) : List Char := characters.flatMap plainSpelling

def respelled (text : String) : String := String.ofList (plain text.toList)

/-- Two neighbours that would be cut differently in their plain spellings. -/
def Fuses (left right : Char) : Prop :=
  left = '×' ∧ right = '*' ∨ (left = '*' ∨ left = '×') ∧ (right = '×' ∨ right = '^')

instance (left right : Char) : Decidable (Fuses left right) :=
  inferInstanceAs (Decidable (_ ∨ _))

/-! ### Plain spellings -/

theorem plain_cons (c : Char) (rest : List Char) :
    plain (c :: rest) = plainSpelling c ++ plain rest :=
  List.flatMap_cons

theorem plain_append (left right : List Char) :
    plain (left ++ right) = plain left ++ plain right :=
  List.flatMap_append

theorem plainSpelling_eq_or (c : Char) :
    plainSpelling c = [c] ∨ c = 'π' ∨ c = '×' ∨ c = '÷' ∨ c = '^' := by
  unfold plainSpelling
  split <;> simp

theorem plainSpelling_ne_nil (c : Char) : plainSpelling c ≠ [] := by
  unfold plainSpelling
  split <;> exact List.cons_ne_nil _ _

theorem plainSpelling_of_isNumeric {c : Char} (hnumeric : isNumeric c) : plainSpelling c = [c] := by
  rcases plainSpelling_eq_or c with h | rfl | rfl | rfl | rfl
  · exact h
  all_goals exact absurd hnumeric (by decide)

theorem plainSpelling_of_not_isFormulaic {c : Char} (hforeign : isFormulaic c = false) :
    plainSpelling c = [c] := by
  rcases plainSpelling_eq_or c with h | rfl | rfl | rfl | rfl
  · exact h
  all_goals exact absurd hforeign (by decide)

theorem plain_of_isNumeric {run : List Char} (hnumeric : ∀ c ∈ run, isNumeric c) :
    plain run = run := by
  induction run with
  | nil => rfl
  | cons c run ih =>
      rw [List.forall_mem_cons] at hnumeric
      rw [plain_cons, plainSpelling_of_isNumeric hnumeric.1, ih hnumeric.2, List.singleton_append]

theorem visible_plainSpelling (c : Char) : visible (plainSpelling c) = plain (visible [c]) := by
  rcases plainSpelling_eq_or c with h | rfl | rfl | rfl | rfl
  · rw [h, visible]
    cases hblank : Text.isBlank c with
    | false => simp [hblank, plain, h]
    | true => simp [hblank, plain]
  all_goals decide

theorem visible_plain (characters : List Char) :
    visible (plain characters) = plain (visible characters) := by
  induction characters with
  | nil => rfl
  | cons c characters ih =>
      rw [plain_cons, visible_append, visible_plainSpelling, ih, ← plain_append, ← visible_append,
        List.singleton_append]

/-! ### Runs -/

theorem isLetter_plain {letters : List Char} (hletters : ∀ c ∈ letters, isLetter c) :
    ∀ c ∈ plain letters, isLetter c := by
  intro c hc
  obtain ⟨letter, hletter, hc⟩ := List.mem_flatMap.mp hc
  rcases plainSpelling_eq_or letter with h | rfl | rfl | rfl | rfl
  · rw [h, List.mem_singleton] at hc
    exact hc ▸ hletters letter hletter
  · obtain rfl | rfl := List.mem_pair.mp hc
    · decide
    · decide
  all_goals exact absurd (hletters _ hletter) (by decide)

theorem name_plain {letters : List Char} (hletters : ∀ c ∈ letters, isLetter c) :
    String.ofList ((plain letters).flatMap fun c => if c = 'π' then ['p', 'i'] else [c]) =
      String.ofList (letters.flatMap fun c => if c = 'π' then ['p', 'i'] else [c]) := by
  rw [plain, List.flatMap_assoc]
  congr 1
  apply List.flatMap_congr
  intro c hc
  rcases plainSpelling_eq_or c with h | rfl | rfl | rfl | rfl
  · rw [h, List.flatMap_singleton]
  · rfl
  all_goals exact absurd (hletters _ hc) (by decide)

theorem plain_symbol {c : Char} {token : Token} (hmem : (c, token) ∈ symbols) :
    (∃ c', plain [c] = [c'] ∧ (c', token) ∈ symbols ∧ (c' = '*' → c = '*' ∨ c = '×')) ∨
      plain [c] = ['*', '*'] ∧ token = .operator .pow := by
  have htoken := tokenOfSymbol?_eq_some.mpr hmem
  rcases plainSpelling_eq_or c with h | rfl | rfl | rfl | rfl
  · exact .inl ⟨c, by simp [plain, h], hmem, .inl⟩
  · cases htoken
  · obtain rfl := Option.some.inj htoken
    exact .inl ⟨'*', rfl, by decide, fun _ => .inr rfl⟩
  · obtain rfl := Option.some.inj htoken
    exact .inl ⟨'/', rfl, by decide, fun h => absurd h (by decide)⟩
  · exact .inr ⟨rfl, (Option.some.inj htoken).symm⟩

theorem Spells.plain {run : List Char} {token : Token} (hspells : Spells run token) :
    Spells (plain run) token := by
  cases hspells with
  | integer hne hdigits hvalue =>
      rw [plain_of_isNumeric fun c hc => isNumeric_of_isDigit (hdigits c hc)]
      exact .integer hne hdigits hvalue
  | decimal hne hdigits hvalue =>
      rw [plain_of_isNumeric (Spells.decimal hne hdigits hvalue).numeric_of_number]
      exact .decimal hne hdigits hvalue
  | name hne hletters =>
      rw [← name_plain hletters]
      refine .name (fun hnil => ?_) (isLetter_plain hletters)
      obtain ⟨c, hc⟩ := List.exists_mem_of_ne_nil _ hne
      exact plainSpelling_ne_nil c (List.flatMap_eq_nil_iff.mp hnil c hc)
  | power => exact .power
  | symbol hmem =>
      obtain ⟨c', hplain, hmem', -⟩ | ⟨hplain, rfl⟩ := plain_symbol hmem
      · rw [hplain]
        exact .symbol hmem'
      · rw [hplain]
        exact .power

/-! ### What stands behind a run -/

theorem head?_plain (rest : List Char) :
    (plain rest).head? = rest.head?.bind fun c => (plainSpelling c).head? := by
  cases rest with
  | nil => rfl
  | cons c rest =>
      rw [plain_cons, List.head?_append_of_ne_nil _ (plainSpelling_ne_nil c)]
      rfl

/-- No character that stops digits or letters becomes one of them. -/
theorem Stops.plain {p : Char → Bool} {rest : List Char} (hstops : Stops p rest)
    (hpi : p 'π' = false → p 'p' = false) (hstar : p '*' = false) (hslash : p '/' = false) :
    Stops p (plain rest) := by
  intro next more hrest
  have hhead := head?_plain rest
  rw [hrest] at hhead
  obtain ⟨c, hc, hnext⟩ := Option.bind_eq_some_iff.mp hhead.symm
  obtain ⟨after, rfl⟩ := List.head?_eq_some_iff.mp hc
  have hstop := hstops c after rfl
  rcases plainSpelling_eq_or c with h | rfl | rfl | rfl | rfl
  · rw [h] at hnext
    exact Option.some.inj hnext ▸ hstop
  · exact Option.some.inj hnext ▸ hpi hstop
  · exact Option.some.inj hnext ▸ hstar
  · exact Option.some.inj hnext ▸ hslash
  · exact Option.some.inj hnext ▸ hstar

/-- Behind a longest run stands nothing that would go on with it. -/
theorem Longest.stops {run rest : List Char} {token : Token} (hlongest : Longest run rest)
    (hspells : Spells run token) {p : Char → Bool}
    (hgo : ∀ next, p next → ∃ longer, Spells (run ++ [next]) longer) : Stops p rest := by
  intro next more hrest
  subst hrest
  cases hp : p next with
  | false => rfl
  | true =>
      obtain ⟨longer, hlonger⟩ := hgo next hp
      exact absurd hlonger ((longest_iff hspells).mp hlongest next rfl longer)

theorem Longest.head?_plain_ne_star {sign : Char} {rest : List Char}
    (hlongest : Longest [sign] rest) (hsign : sign = '*' ∨ sign = '×')
    (hapart : (sign :: rest).IsChain fun left right => ¬Fuses left right) :
    (plain rest).head? ≠ some '*' := by
  intro hhead
  rw [head?_plain] at hhead
  obtain ⟨next, hnext, hfirst⟩ := Option.bind_eq_some_iff.mp hhead
  have hfuses : ¬Fuses sign next := (List.isChain_cons.mp hapart).1 next hnext
  rcases plainSpelling_eq_or next with h | rfl | rfl | rfl | rfl
  · rw [h] at hfirst
    obtain rfl : next = '*' := Option.some.inj hfirst
    rcases hsign with rfl | rfl
    · exact (longest_iff (.symbol (by decide : ('*', Token.operator .mul) ∈ symbols))).mp
        hlongest '*' hnext _ .power
    · exact hfuses (by decide)
  · cases hfirst
  · exact hfuses (.inr ⟨hsign, .inl rfl⟩)
  · cases hfirst
  · exact hfuses (.inr ⟨hsign, .inr rfl⟩)

/-- The plain spelling of a longest run is a longest run, if it fuses with nothing. -/
theorem Longest.plain {run rest : List Char} {token : Token} (hlongest : Longest run rest)
    (hspells : Spells run token)
    (hapart : (run ++ rest).IsChain fun left right => ¬Fuses left right) :
    Longest (plain run) (plain rest) := by
  cases hspells with
  | @integer digits _ hne hdigits hvalue =>
      have hnumeric : ∀ c ∈ run, isNumeric c := fun c hc => isNumeric_of_isDigit (hdigits c hc)
      have hstops : Stops isNumeric rest := by
        apply hlongest.stops (.integer hne hdigits hvalue)
        intro next hnext
        rw [isNumeric, Bool.or_eq_true, beq_iff_eq] at hnext
        rcases hnext with hdigit | rfl
        · refine exists_spells_integer (by simp) ?_
          simpa [or_imp, forall_and] using ⟨hdigits, hdigit⟩
        · exact exists_spells_decimal (by simpa using hne) (by simpa using hdigits)
      obtain ⟨c, hc⟩ := List.exists_mem_of_ne_nil _ hne
      rw [plain_of_isNumeric hnumeric]
      exact .integer hc (hnumeric c hc) (hstops.plain (by decide) (by decide) (by decide))
  | @decimal whole fraction _ hne hdigits hvalue =>
      have hstops : Stops isDigit rest := by
        apply hlongest.stops (.decimal hne hdigits hvalue)
        intro next hnext
        rw [List.append_assoc, List.cons_append]
        refine exists_spells_decimal (by simp) ?_
        rw [← List.append_assoc, List.forall_mem_append, List.forall_mem_singleton]
        exact ⟨hdigits, hnext⟩
      rw [plain_of_isNumeric (Spells.decimal hne hdigits hvalue).numeric_of_number]
      exact .decimal (by simp) (hstops.plain (by decide) (by decide) (by decide))
  | name hne hletters =>
      have hstops : Stops isLetter rest := by
        apply hlongest.stops (.name hne hletters)
        intro next hnext
        refine ⟨_, .name (by simp) ?_⟩
        rw [List.forall_mem_append, List.forall_mem_singleton]
        exact ⟨hletters, hnext⟩
      obtain ⟨c, hc⟩ := List.exists_mem_of_ne_nil _ (Spells.name hne hletters).plain.ne_nil
      exact .name hc (isLetter_plain hletters c hc)
        (hstops.plain (by decide) (by decide) (by decide))
  | power => exact .power _
  | @symbol c _ hmem =>
      obtain ⟨c', hplain, hmem', hsign⟩ | ⟨hplain, -⟩ := plain_symbol hmem
      · rw [hplain]
        obtain ⟨hdigit, hpoint, hletter⟩ := symbol_plain hmem'
        exact .symbol (by simp [isNumeric, hdigit, hpoint]) hletter fun hstar =>
          hlongest.head?_plain_ne_star (hsign hstar) hapart
      · rw [hplain]
        exact .power _

theorem Unspelled.plain {c : Char} {rest : List Char} (h : Unspelled c rest) :
    plainSpelling c = [c] ∧ Unspelled c (plain rest) := by
  rcases h with hforeign | ⟨rfl, hnext⟩
  · exact ⟨plainSpelling_of_not_isFormulaic hforeign, .inl hforeign⟩
  · refine ⟨rfl, .inr ⟨rfl, fun next hhead => ?_⟩⟩
    have hstops : Stops isDigit rest := fun next more hrest => hnext next (by rw [hrest]; rfl)
    obtain ⟨more, hrest⟩ := List.head?_eq_some_iff.mp hhead
    exact hstops.plain (by decide) (by decide) (by decide) next more hrest

/-! ### Lexemes -/

/-- The lexemes of a plain spelling stand for the same tokens, one by one. -/
theorem lexemes_plain (characters : List (Placed Char)) :
    ∀ {characters' : List (Placed Char)}, valuesOf characters' = plain (valuesOf characters) →
      ((valuesOf characters).IsChain fun left right => ¬Fuses left right) →
      List.Forall₂ (Lexeme.Matches fun _ _ => True) (lexemes characters)
        (lexemes characters') := by
  induction characters using lexemes_induction with
  | nil =>
      intro characters' hvalues _
      rw [List.map_eq_nil_iff.mp hvalues]
      simp
  | run first others rest token hspells hlongest ih =>
      intro characters' hvalues hapart
      rw [valuesOf_append, plain_append] at hvalues
      rw [valuesOf_append] at hapart
      obtain ⟨front, after, rfl, hfront, hafter⟩ := List.map_eq_append_iff.mp hvalues
      have hspells' := hspells.plain
      have hlongest' := hlongest.plain hspells hapart
      rw [← hfront] at hspells' hlongest'
      rw [← hafter] at hlongest'
      cases front with
      | nil => exact absurd rfl hspells'.ne_nil
      | cons first' others' =>
          have htoken := token?_of_run hspells
          rw [lexemes_of_run hspells hlongest, lexemes_of_run hspells' hlongest']
          refine .cons ⟨htoken.trans (token?_of_run hspells').symm, fun hnone => ?_, trivial⟩
            (ih hafter hapart.right_of_append)
          rw [htoken] at hnone
          cases hnone
  | unspelled first rest h ih =>
      intro characters' hvalues hapart
      obtain ⟨hself, h'⟩ := h.plain
      have hfront : plain (valuesOf (first :: rest)) = first.value :: plain (valuesOf rest) := by
        rw [valuesOf, List.map_cons, plain_cons, hself]
        rfl
      rw [hfront] at hvalues
      obtain ⟨first', rest', rfl, hfirst, hrest⟩ := List.map_eq_cons_iff.mp hvalues
      rw [← hfirst] at h'
      change valuesOf rest' = _ at hrest
      rw [← hrest] at h'
      rw [lexemes_of_unspelled h, lexemes_of_unspelled h']
      refine .cons ⟨?_, fun _ => hfirst.symm, trivial⟩ (ih hrest hapart.of_cons)
      rw [h.token?_eq, h'.token?_eq]

/-! ### Main statement -/

/--
Typographic symbols are other spellings and nothing else. A text in which no two of them fuse has
the tokens of its plain spelling, or both are unreadable at the same character; and for every limit
of nodes both are compiled to the same tree with the same number of nodes, or rejected for the same
reason. Only places differ.
-/
theorem compileWith_respelled {text : String}
    (hapart : (visible text.toList).IsChain fun left right => ¬Fuses left right) :
    TokensMatch (fun _ _ => True) text (respelled text) ∧
      ∀ maxNodes, CompilesAlike (fun _ _ => True) maxNodes text (respelled text) := by
  have hvalues : valuesOf (visibleCharacters (respelled text)) =
      plain (valuesOf (visibleCharacters text)) := by
    rw [valuesOf_visibleCharacters, valuesOf_visibleCharacters, respelled, String.toList_ofList,
      visible_plain]
  rw [← valuesOf_visibleCharacters] at hapart
  have hmatch := tokensMatch_of_lexemes (lexemes_plain _ hvalues hapart)
  exact ⟨hmatch, fun maxNodes => (hmatch.compileWith maxNodes).imp fun _ _ _ => trivial⟩

/-- A product of powers, a quotient and a number that is multiplied by the Greek letter. -/
theorem compileWith_respelled_signs :
    respelled "2π × t^3 ÷ π" = "2pi * t**3 / pi" ∧
      TokensMatch (fun _ _ => True) "2π × t^3 ÷ π" "2pi * t**3 / pi" ∧
      ∀ maxNodes, CompilesAlike (fun _ _ => True) maxNodes "2π × t^3 ÷ π" "2pi * t**3 / pi" := by
  have hplain : respelled "2π × t^3 ÷ π" = "2pi * t**3 / pi" := by decide
  exact ⟨hplain, hplain ▸ compileWith_respelled (by decide)⟩

end Waveform.Formula
