import Waveform.Proofs.Formula.Cutting
import Waveform.Proofs.Formula.Scanning
import Waveform.Proofs.Formula.Visible

/-!
# Where a text is unreadable

A text is refused at the first character that belongs to no token: everything before it is accepted
by itself, it does not go on with the run that ends there, and no token begins with it. For a
character that formulas are not written with that is always so. A point goes on with a number that
has no point yet, and begins one if a digit follows. Main statement: `tokenize_refuses_first`.
-/

namespace Waveform.Formula

/-! ### What a text is refused for -/

def opening (text : String) (place : Nat) : String := String.ofList (text.toList.take place)

/-- The last token in front of the end is a number, and it is written without a point. -/
def EndsInWhole (text : String) : Prop :=
  ∃ tokens value place,
    tokenize text = .ok (tokens ++ [⟨.number value, place⟩, ⟨.finish, text.length⟩]) ∧
      '.' ∉ text.toList.drop place

/--
The first character at which a text cannot be read: what stands before it is accepted, and it
neither begins a token nor, as a point, goes on with the number before it.
-/
structure Unreadable (text : String) (c : Char) (place : Nat) : Prop where
  here : text.toList[place]? = some c
  plain : Text.isBlank c = false
  accepted : ∃ tokens, tokenize (opening text place) = .ok tokens
  unspelled : Unspelled c (visible (text.toList.drop (place + 1)))
  apart : c = '.' → ¬EndsInWhole (opening text place)

/-! ### A point behind a run -/

theorem Spells.number_of_numeric {run : List Char} {token : Token} (hspells : Spells run token)
    (hnumeric : ∀ c ∈ run, isNumeric c) : ∃ value, token = .number value := by
  cases hspells with
  | integer => exact ⟨_, rfl⟩
  | decimal => exact ⟨_, rfl⟩
  | name hne hletters =>
      obtain ⟨c, hc⟩ := List.exists_mem_of_ne_nil _ hne
      have hletter := hletters c hc
      simp [isLetter_of_isNumeric (hnumeric c hc)] at hletter
  | power => exact absurd (hnumeric '*' List.mem_cons_self) (by decide)
  | symbol hmem =>
      obtain ⟨hdigit, hpoint, -⟩ := symbol_plain hmem
      have hplain := hnumeric _ List.mem_cons_self
      simp [isNumeric, hdigit, hpoint] at hplain

theorem Spells.point_iff {run : List Char} {token : Token} (hspells : Spells run token) :
    (∃ longer, Spells (run ++ ['.']) longer) ↔ (∃ value, token = .number value) ∧ '.' ∉ run := by
  constructor
  · intro hgo
    obtain ⟨longer, hlonger⟩ := hgo
    have hnumeric : ∀ c ∈ run ++ ['.'], isNumeric c := hlonger.numeric.resolve_right fun hnone =>
      absurd (hnone '.' (by simp)) (by decide)
    refine ⟨hspells.number_of_numeric fun c hc => hnumeric c (List.mem_append_left _ hc), ?_⟩
    intro hmem
    have hcount := hlonger.count_point_le
    have hpos := List.count_pos_iff.mpr hmem
    rw [List.count_append, List.count_singleton_self] at hcount
    omega
  · rintro ⟨⟨value, rfl⟩, hpoint⟩
    have hdigits : ∀ c ∈ run ++ [], isDigit c := by
      intro c hc
      rw [List.append_nil] at hc
      have hnumeric := hspells.numeric_of_number c hc
      rw [isNumeric, Bool.or_eq_true, beq_iff_eq] at hnumeric
      exact hnumeric.resolve_right fun heq => hpoint (heq ▸ hc)
    exact exists_spells_decimal (by simpa using hspells.ne_nil) hdigits

/-! ### The first lexeme that is not read -/

/-- The last of some readings is a number, and its characters, the last ones, have no point. -/
def WholeBehind (characters : List (Placed Char)) (readings : List (Placed Token)) : Prop :=
  ∃ value place, readings.getLast? = some ⟨.number value, place⟩ ∧
    ∀ item ∈ characters, place ≤ item.position → item.value ≠ '.'

variable {first : Placed Char} {others rest : List (Placed Char)} {token : Token}
  {readings : List (Placed Token)}

theorem wholeBehind_single (hspells : Spells (valuesOf (first :: others)) token)
    (hsorted : ((first :: others).map (·.position)).Pairwise (· < ·)) :
    WholeBehind (first :: others) [⟨token, first.position⟩] ↔
      ∃ longer, Spells (valuesOf (first :: others) ++ ['.']) longer := by
  rw [List.map_cons, List.pairwise_cons] at hsorted
  have hplaces : ∀ item ∈ first :: others, first.position ≤ item.position := by
    rw [List.forall_mem_cons]
    exact ⟨Nat.le_refl _, fun item hitem => Nat.le_of_lt (hsorted.1 _ (List.mem_map_of_mem hitem))⟩
  rw [hspells.point_iff, WholeBehind]
  constructor
  · intro hwhole
    obtain ⟨value, place, hlast, hnone⟩ := hwhole
    obtain ⟨rfl, rfl⟩ : token = .number value ∧ first.position = place := by simpa using hlast
    refine ⟨⟨value, rfl⟩, fun hpoint => ?_⟩
    obtain ⟨item, hitem, hvalue⟩ := List.mem_map.mp hpoint
    exact hnone item hitem (hplaces item hitem) hvalue
  · rintro ⟨⟨value, rfl⟩, hpoint⟩
    refine ⟨value, first.position, rfl, fun item hitem _ hvalue => hpoint ?_⟩
    exact List.mem_map.mpr ⟨item, hitem, hvalue⟩

theorem wholeBehind_cons (hrest : Cuts rest readings) (hne : readings ≠ [])
    (hsorted : ((first :: others ++ rest).map (·.position)).Pairwise (· < ·)) :
    WholeBehind (first :: others ++ rest) (⟨token, first.position⟩ :: readings) ↔
      WholeBehind rest readings := by
  have hlast : ∀ reading : Placed Token,
      (reading :: readings).getLast? = readings.getLast? := by
    intro reading
    rw [List.getLast?_cons, List.getLast?_eq_some_getLast hne]
    rfl
  rw [WholeBehind, WholeBehind, hlast]
  refine exists₂_congr fun value place => and_congr_right fun hplace => ?_
  constructor
  · exact fun hnone item hitem => hnone item (List.mem_append_right _ hitem)
  · intro hnone item hitem hle
    rcases List.mem_append.mp hitem with hitem | hitem
    · rw [List.map_append, List.pairwise_append] at hsorted
      have hmem : place ∈ rest.map (·.position) :=
        hrest.positions_sublist.subset (List.mem_map.mpr ⟨_, List.mem_of_getLast? hplace, rfl⟩)
      have hlt := hsorted.2.2 _ (List.mem_map_of_mem hitem) _ hmem
      omega
    · exact hnone item hitem hle

theorem Longest.of_append {run rest after : List Char} (h : Longest run (rest ++ after)) :
    Longest run rest := by
  intro longer token hlonger hspells
  have hfront : run ++ rest <+: run ++ (rest ++ after) := by
    rw [← List.append_assoc]
    exact List.prefix_append _ _
  exact h longer token (hlonger.trans hfront) hspells

/-- If reading fails, it fails at a character that no token begins with, behind cut runs. -/
theorem exists_unspelled {characters : List (Placed Char)} {c : Char} {place : Nat}
    (hsorted : (characters.map (·.position)).Pairwise (· < ·))
    (herror : (lexemes characters).mapM Lexeme.read = .error ⟨c, place⟩) :
    ∃ before readings after, characters = before ++ ⟨c, place⟩ :: after ∧ Cuts before readings ∧
      Unspelled c (valuesOf after) ∧ (c = '.' → ¬WholeBehind before readings) := by
  induction characters using lexemes_induction with
  | nil =>
      rw [lexemes_nil, List.mapM_nil] at herror
      cases herror
  | run first others rest token hspells hlongest ih =>
      obtain ⟨before, readings, after, rfl, hcuts, hunspelled, hapart⟩ :=
        ih (hsorted.sublist ((List.sublist_append_right _ _).map _))
          ((mapM_read_of_run hspells hlongest _).mp herror)
      rw [valuesOf_append] at hlongest
      rw [← List.append_assoc] at hsorted ⊢
      rw [List.map_append] at hsorted
      have hsorted := (List.pairwise_append.mp hsorted).1
      refine ⟨_, _, after, rfl, .cons hspells hlongest.of_append hcuts, hunspelled, ?_⟩
      intro hpoint hwhole
      cases hcuts with
      | nil =>
          rw [List.append_nil] at hsorted hwhole
          obtain ⟨longer, hlonger⟩ := (wholeBehind_single hspells hsorted).mp hwhole
          exact (longest_iff hspells).mp hlongest c rfl longer (hpoint ▸ hlonger)
      | cons hspells' hlongest' hrest =>
          exact hapart hpoint ((wholeBehind_cons (.cons hspells' hlongest' hrest)
            (List.cons_ne_nil _ _) hsorted).mp hwhole)
  | unspelled first rest h ih =>
      rw [mapM_read_of_unspelled h] at herror
      cases herror
      exact ⟨[], [], rest, rfl, .nil, h, fun _ ⟨_, _, hlast, _⟩ => by cases hlast⟩

/-- Reading fails at a character that no token begins with, if no run before it goes on with it. -/
theorem mapM_read_of_split {before after : List (Placed Char)} {readings : List (Placed Token)}
    {c : Char} {place : Nat} (hsorted : (before.map (·.position)).Pairwise (· < ·))
    (hcuts : Cuts before readings) (hunspelled : Unspelled c (valuesOf after))
    (hapart : c = '.' → ¬WholeBehind before readings) :
    (lexemes (before ++ ⟨c, place⟩ :: after)).mapM Lexeme.read = .error ⟨c, place⟩ := by
  induction hcuts with
  | nil => exact mapM_read_of_unspelled hunspelled
  | @cons first others rest token readings hspells hlongest hrest ih =>
      have hlongest' : Longest (valuesOf (first :: others))
          (valuesOf (rest ++ ⟨c, place⟩ :: after)) := by
        rw [longest_iff hspells] at hlongest ⊢
        cases hrest with
        | nil =>
            intro next hnext longer hlonger
            obtain rfl : c = next := Option.some.inj hnext
            rcases hunspelled with hforeign | ⟨rfl, -⟩
            · have hformulaic := hlonger.formulaic c (List.mem_append_right _ List.mem_cons_self)
              simp [hforeign] at hformulaic
            · rw [List.append_nil] at hsorted hapart
              exact hapart rfl ((wholeBehind_single hspells hsorted).mpr ⟨longer, hlonger⟩)
        | cons => exact hlongest
      have hsortedRest := hsorted.sublist ((List.sublist_append_right (first :: others) rest).map _)
      rw [List.append_assoc, mapM_read_of_run hspells hlongest']
      refine ih hsortedRest fun hpoint hwhole => hapart hpoint ?_
      refine (wholeBehind_cons hrest ?_ hsorted).mpr hwhole
      rintro rfl
      obtain ⟨_, _, hlast, _⟩ := hwhole
      cases hlast

/-! ### Main statement -/

theorem getLast?_withProducts (readings : List (Placed Token)) :
    (withProducts readings).getLast? = readings.getLast? := by
  fun_induction withProducts readings with
  | case1 left right rest hproduct ih => simp [List.getLast?_cons, ih]
  | case2 left right rest hproduct ih => simp [List.getLast?_cons, ih]
  | case3 => rfl

theorem point_mem_drop {text : String} {place : Nat} :
    '.' ∈ text.toList.drop place ↔
      ∃ item ∈ visibleCharacters text, place ≤ item.position ∧ item.value = '.' := by
  rw [List.mem_drop_iff_getElem]
  constructor
  · intro hpoint
    obtain ⟨i, hi, hvalue⟩ := hpoint
    refine ⟨⟨'.', place + i⟩, mem_visibleCharacters.mpr ⟨?_, ?_⟩, Nat.le_add_right _ _, rfl⟩
    · rw [← hvalue]
      exact List.getElem?_eq_getElem _
    · exact (by decide : Text.isBlank '.' = false)
  · intro hpoint
    obtain ⟨item, hitem, hle, hvalue⟩ := hpoint
    obtain ⟨hlt, hhere⟩ := List.getElem?_eq_some_iff.mp (mem_visibleCharacters.mp hitem).1
    have hplace : place + (item.position - place) = item.position := by omega
    refine ⟨item.position - place, by omega, ?_⟩
    simp only [hplace, hhere, hvalue]

theorem endsInWhole_iff {text : String} {readings : List (Placed Token)}
    (hcuts : Cuts (visibleCharacters text) readings) :
    EndsInWhole text ↔ WholeBehind (visibleCharacters text) readings := by
  have htokens : tokenize text = .ok (withProducts readings ++ [⟨.finish, text.length⟩]) :=
    tokenize_eq_ok.mpr ⟨readings, hcuts, rfl⟩
  have hlast : ∀ reading, readings.getLast? = some reading ↔ ∃ tokens,
      withProducts readings ++ [⟨.finish, text.length⟩] =
        tokens ++ [reading, ⟨.finish, text.length⟩] := by
    intro reading
    rw [← getLast?_withProducts, List.getLast?_eq_some_iff]
    apply exists_congr
    intro tokens
    rw [← List.append_left_inj [⟨.finish, text.length⟩], List.append_assoc, List.singleton_append]
  rw [EndsInWhole, WholeBehind, htokens]
  constructor
  · intro hends
    obtain ⟨tokens, value, place, heq, hnone⟩ := hends
    refine ⟨value, place, (hlast _).mpr ⟨tokens, Except.ok.inj heq⟩, ?_⟩
    intro item hitem hle hvalue
    exact hnone (point_mem_drop.mpr ⟨item, hitem, hle, hvalue⟩)
  · intro hwhole
    obtain ⟨value, place, hreading, hnone⟩ := hwhole
    obtain ⟨tokens, heq⟩ := (hlast _).mp hreading
    refine ⟨tokens, value, place, congrArg _ heq, fun hpoint => ?_⟩
    obtain ⟨item, hitem, hle, hvalue⟩ := point_mem_drop.mp hpoint
    exact hnone item hitem hle hvalue

theorem tokenize_eq_error {text : String} {fault : UnreadableCharacter} :
    tokenize text = .error fault ↔
      (lexemes (visibleCharacters text)).mapM Lexeme.read = .error fault := by
  rw [tokenize]
  cases (lexemes (visibleCharacters text)).mapM Lexeme.read <;>
    simp [bind, Except.bind, pure, Except.pure]

theorem unreadable_of_error {text : String} {c : Char} {place : Nat}
    (herror : tokenize text = .error ⟨c, place⟩) : Unreadable text c place := by
  obtain ⟨before, readings, after, hsplit, hcuts, hunspelled, hapart⟩ :=
    exists_unspelled (sorted_visibleCharacters text) (tokenize_eq_error.mp herror)
  obtain ⟨front, back, htext, rfl, hplain, rfl, hback⟩ := exists_split hsplit
  have hopening : opening text front.length = String.ofList front := by
    rw [opening, htext, List.take_left]
  have hdrop : text.toList.drop (front.length + 1) = back := by
    rw [htext, ← List.drop_drop, List.drop_left, List.drop_succ_cons, List.drop_zero]
  exact {
    here := by rw [htext, List.getElem?_append_right (Nat.le_refl _), Nat.sub_self]; rfl
    plain := hplain
    accepted := hopening ▸ ⟨_, tokenize_eq_ok.mpr ⟨readings, hcuts, rfl⟩⟩
    unspelled := by rwa [hdrop, hback]
    apart := fun hpoint => by rw [hopening, endsInWhole_iff hcuts]; exact hapart hpoint }

theorem Unreadable.error {text : String} {c : Char} {place : Nat} (h : Unreadable text c place) :
    tokenize text = .error ⟨c, place⟩ := by
  obtain ⟨hlt, hvalue⟩ := List.getElem?_eq_some_iff.mp h.here
  have htext : text.toList = text.toList.take place ++ c :: text.toList.drop (place + 1) := by
    rw [← hvalue, List.getElem_cons_drop, List.take_append_drop]
  have hlength : (text.toList.take place).length = place := by
    rw [List.length_take]
    omega
  obtain ⟨after, hsplit, hafter⟩ := visibleCharacters_split htext h.plain
  obtain ⟨tokens, htokens⟩ := h.accepted
  obtain ⟨readings, hcuts, -⟩ := tokenize_eq_ok.mp htokens
  rw [hlength] at hsplit
  rw [tokenize_eq_error, hsplit]
  refine mapM_read_of_split (sorted_visibleCharacters _) hcuts ?_ fun hpoint => ?_
  · rw [hafter]
    exact h.unspelled
  · exact (endsInWhole_iff hcuts).not.mp (h.apart hpoint)

/--
A text is refused exactly at the first character that cannot be read there, and there is only one
such character.
-/
theorem tokenize_refuses_first (text : String) :
    (∀ c place, tokenize text = .error ⟨c, place⟩ ↔ Unreadable text c place) ∧
      ∀ c c' place place', Unreadable text c place → Unreadable text c' place' →
        place = place' := by
  refine ⟨fun c place => ⟨unreadable_of_error, Unreadable.error⟩, ?_⟩
  intro c c' place place' h h'
  have heq := h.error.symm.trans h'.error
  exact congrArg UnreadableCharacter.position (Except.error.inj heq)

end Waveform.Formula
