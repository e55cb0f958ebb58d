import Waveform.Proofs.Formula.Lexing

/-!
# The visible characters of a text

No token is spelled with a blank, so blanks are dropped before a text is cut, and all that is left
of them are the places of the other characters. A visible character splits the text where it
stands: what is visible before it is what the text up to there shows, at the same places. Main
statement: `visibleCharacters_split`.
-/

namespace Waveform.Formula

/-! ### Blanks -/

theorem isBlank_of_isNumeric {c : Char} (hnumeric : isNumeric c) : Text.isBlank c = false := by
  rw [isNumeric, Bool.or_eq_true, beq_iff_eq] at hnumeric
  rcases hnumeric with hdigit | rfl
  · have hrange : 48 ≤ c.toNat ∧ c.toNat ≤ 57 := by
      simpa [isDigit, Char.isDigit, UInt32.le_iff_toNat_le] using hdigit
    simp only [Text.isBlank, Text.blankRanges, List.any_cons, List.any_nil, Bool.or_false,
      Bool.or_eq_false_iff, Bool.and_eq_false_iff, decide_eq_false_iff_not]
    omega
  · decide

theorem isBlank_of_isLetter {c : Char} (hletter : isLetter c) : Text.isBlank c = false := by
  rw [isLetter, Bool.or_eq_true, beq_iff_eq] at hletter
  rcases hletter with halpha | rfl
  · have hrange : 65 ≤ c.toNat ∧ c.toNat ≤ 90 ∨ 97 ≤ c.toNat ∧ c.toNat ≤ 122 := by
      simpa [isAlpha_eq, UInt32.le_iff_toNat_le] using halpha
    simp only [Text.isBlank, Text.blankRanges, List.any_cons, List.any_nil, Bool.or_false,
      Bool.or_eq_false_iff, Bool.and_eq_false_iff, decide_eq_false_iff_not]
    omega
  · decide

theorem isBlank_of_symbol {c : Char} {token : Token} (hmem : (c, token) ∈ symbols) :
    Text.isBlank c = false :=
  (by decide : ∀ symbol ∈ symbols, Text.isBlank symbol.1 = false) _ hmem

def visible (characters : List Char) : List Char := characters.filter fun c => !Text.isBlank c

theorem Spells.visible {run : List Char} {token : Token} (hspells : Spells run token) :
    visible run = run := by
  have hplain : ∀ c ∈ run, Text.isBlank c = false := by
    cases hspells with
    | integer _ hdigits =>
        exact fun c hc => isBlank_of_isNumeric (isNumeric_of_isDigit (hdigits c hc))
    | decimal hne hdigits hvalue =>
        exact fun c hc =>
          isBlank_of_isNumeric ((Spells.decimal hne hdigits hvalue).numeric_of_number c hc)
    | name _ hletters => exact fun c hc => isBlank_of_isLetter (hletters c hc)
    | power =>
        rw [List.forall_mem_cons, List.forall_mem_singleton]
        decide
    | symbol hmem => exact List.forall_mem_singleton.mpr (isBlank_of_symbol hmem)
  exact List.filter_eq_self.mpr fun c hc => by rw [hplain c hc, Bool.not_false]

theorem visible_append (left right : List Char) :
    visible (left ++ right) = visible left ++ visible right :=
  List.filter_append ..

/-! ### Places -/

/-- All characters, each at its place, when the first one is at `offset`. -/
def placedFrom (offset : Nat) (characters : List Char) : List (Placed Char) :=
  (characters.zipIdx offset).map fun (c, place) => ⟨c, place⟩

theorem mem_placedFrom_zero {characters : List Char} {item : Placed Char} :
    item ∈ placedFrom 0 characters ↔ characters[item.position]? = some item.value := by
  obtain ⟨c, place⟩ := item
  simp [placedFrom, List.mk_mem_zipIdx_iff_getElem?]

theorem placedFrom_append (offset : Nat) (left right : List Char) :
    placedFrom offset (left ++ right) =
      placedFrom offset left ++ placedFrom (offset + left.length) right := by
  simp only [placedFrom, List.zipIdx_append, List.map_append]

/-! ### What is visible of some characters -/

/-- What is visible of some characters, the first of which is at `place`. -/
def visibleFrom (place : Nat) (characters : List Char) : List (Placed Char) :=
  (placedFrom place characters).filter fun item => !Text.isBlank item.value

theorem visibleFrom_append (place : Nat) (left right : List Char) :
    visibleFrom place (left ++ right) =
      visibleFrom place left ++ visibleFrom (place + left.length) right := by
  rw [visibleFrom, placedFrom_append, List.filter_append]
  rfl

theorem visibleFrom_cons {first : Char} (hfirst : Text.isBlank first = false) (place : Nat)
    (others : List Char) :
    visibleFrom place (first :: others) = ⟨first, place⟩ :: visibleFrom (place + 1) others :=
  List.filter_cons_of_pos (by simp [hfirst])

theorem visibleFrom_cons_blank {first : Char} (hfirst : Text.isBlank first) (place : Nat)
    (others : List Char) : visibleFrom place (first :: others) = visibleFrom (place + 1) others :=
  List.filter_cons_of_neg (by simp [hfirst])

theorem valuesOf_visibleFrom (place : Nat) (characters : List Char) :
    valuesOf (visibleFrom place characters) = visible characters := by
  have hvalues : (placedFrom place characters).map (·.value) = characters := by
    rw [placedFrom, List.map_map]
    exact List.zipIdx_map_fst place characters
  rw [visible, ← hvalues, List.filter_map, hvalues]
  rfl

theorem visibleFrom_eq_nil {characters : List Char} (place : Nat) :
    visibleFrom place characters = [] ↔ ∀ c ∈ characters, Text.isBlank c := by
  rw [← List.map_eq_nil_iff, ← valuesOf, valuesOf_visibleFrom, visible, List.filter_eq_nil_iff]
  simp

theorem visibleFrom_eq_append {place : Nat} {characters : List Char}
    {left right : List (Placed Char)} (hvisible : visibleFrom place characters = left ++ right) :
    ∃ front back, characters = front ++ back ∧ visibleFrom place front = left ∧
      visibleFrom (place + front.length) back = right := by
  obtain ⟨first, second, hsplit, hleft, hright⟩ := List.filter_eq_append_iff.mp hvisible
  obtain ⟨pairs, pairs', hpairs, rfl, rfl⟩ := List.map_eq_append_iff.mp hsplit
  obtain ⟨front, back, rfl, rfl, rfl⟩ := List.zipIdx_eq_append_iff.mp hpairs
  exact ⟨front, back, rfl, hleft, hright⟩

/-- In front of the first character that is visible there are only blanks. -/
theorem visibleFrom_eq_cons {place : Nat} {characters : List Char} {first : Placed Char}
    {others : List (Placed Char)} (hvisible : visibleFrom place characters = first :: others) :
    ∃ blanks back, characters = blanks ++ first.value :: back ∧
      (∀ c ∈ blanks, Text.isBlank c) ∧ Text.isBlank first.value = false ∧
      first.position = place + blanks.length ∧ visibleFrom (first.position + 1) back = others := by
  induction characters generalizing place with
  | nil => cases hvisible
  | cons c characters ih =>
    cases hc : Text.isBlank c with
    | true =>
      rw [visibleFrom_cons_blank hc] at hvisible
      obtain ⟨blanks, back, rfl, hblank, hfirst, hplace, hback⟩ := ih hvisible
      refine ⟨c :: blanks, back, rfl, List.forall_mem_cons.mpr ⟨hc, hblank⟩, hfirst, ?_, hback⟩
      rw [hplace, List.length_cons]
      omega
    | false =>
      rw [visibleFrom_cons hc, List.cons.injEq] at hvisible
      obtain ⟨rfl, rfl⟩ := hvisible
      exact ⟨[], characters, rfl, by simp, hc, rfl, rfl⟩

/-! ### What is visible of a text -/

theorem visibleCharacters_eq (text : String) :
    visibleCharacters text = visibleFrom 0 text.toList :=
  rfl

theorem mem_visibleCharacters {text : String} {item : Placed Char} :
    item ∈ visibleCharacters text ↔
      text.toList[item.position]? = some item.value ∧ Text.isBlank item.value = false := by
  rw [visibleCharacters_eq, visibleFrom, List.mem_filter, mem_placedFrom_zero, Bool.not_eq_true']

theorem valuesOf_visibleCharacters (text : String) :
    valuesOf (visibleCharacters text) = visible text.toList :=
  valuesOf_visibleFrom 0 text.toList

theorem sorted_visibleCharacters (text : String) :
    ((visibleCharacters text).map (·.position)).Pairwise (· < ·) := by
  have hall : ((placedFrom 0 text.toList).map (·.position)).Pairwise (· < ·) := by
    have hplaces : (placedFrom 0 text.toList).map (·.position) =
        List.range' 0 text.toList.length := by
      rw [placedFrom, List.map_map]
      exact List.zipIdx_map_snd 0 text.toList
    rw [hplaces]
    exact List.pairwise_lt_range'
  exact hall.sublist (List.filter_sublist.map _)

/-- The readings start where their first characters are. -/
theorem Cuts.positions_sublist {characters : List (Placed Char)}
    {readings : List (Placed Token)} (hcuts : Cuts characters readings) :
    (readings.map (·.position)).Sublist (characters.map (·.position)) := by
  induction hcuts with
  | nil => exact .slnil
  | @cons first others rest token readings _ _ _ ih =>
      rw [List.cons_append, List.map_cons, List.map_cons, List.map_append]
      exact (ih.trans (List.sublist_append_right _ _)).cons_cons _

/-! ### Splitting a text -/

/-- What is visible in a text, seen from one of its visible characters. -/
theorem visibleCharacters_split {text : String} {front back : List Char} {c : Char}
    (htext : text.toList = front ++ c :: back) (hvisible : Text.isBlank c = false) :
    ∃ after, visibleCharacters text =
        visibleCharacters (String.ofList front) ++ ⟨c, front.length⟩ :: after ∧
      valuesOf after = visible back := by
  refine ⟨_, ?_, valuesOf_visibleFrom (front.length + 1) back⟩
  rw [visibleCharacters_eq, htext, visibleFrom_append, Nat.zero_add, visibleFrom_cons hvisible,
    visibleCharacters_eq, String.toList_ofList]

theorem exists_split {text : String} {before after : List (Placed Char)} {item : Placed Char}
    (hsplit : visibleCharacters text = before ++ item :: after) :
    ∃ front back, text.toList = front ++ item.value :: back ∧ front.length = item.position ∧
      Text.isBlank item.value = false ∧ visibleCharacters (String.ofList front) = before ∧
      visible back = valuesOf after := by
  obtain ⟨opening, rest, htext, hbefore, hrest⟩ := visibleFrom_eq_append hsplit
  obtain ⟨blanks, back, rfl, hblank, hvisible, hplace, hback⟩ := visibleFrom_eq_cons hrest
  refine ⟨opening ++ blanks, back, ?_, ?_, hvisible, ?_, ?_⟩
  · rw [htext, List.append_assoc]
  · rw [hplace, List.length_append, Nat.zero_add]
  · rw [visibleCharacters_eq, String.toList_ofList, visibleFrom_append,
      (visibleFrom_eq_nil _).mpr hblank, List.append_nil, hbefore]
  · rw [← hback, valuesOf_visibleFrom]

end Waveform.Formula
