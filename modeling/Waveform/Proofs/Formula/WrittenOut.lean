import Mathlib.Data.Nat.Count
import Waveform.Proofs.Formula.Acceptance
import Waveform.Proofs.Formula.Correspondence
import Waveform.Proofs.Formula.Scanning
import Waveform.Proofs.Formula.Visible

/-!
# Multiplications written out

A multiplication that is understood between two runs may as well be written. The asterisk goes
directly in front of the second run, and nothing else changes: it does not run together with its
neighbours, none of which has an asterisk, and no multiplication is understood beside it. The
tokens are the same, and so is what the parser makes of them; only places move, each by the number
of asterisks that have been written up to it. Main statement: `compileWith_writtenOut`.
-/

namespace Waveform.Formula

/-! ### Writing the multiplications out -/

/-- The places of the readings that are multiplied with the one before them. -/
def productPlaces (readings : List (Placed Token)) : List Nat :=
  ((readings.zip readings.tail).filter fun (left, right) =>
    left.value.impliesProduct right.value).map (·.2.position)

/-- The places in a text where a multiplication is understood; none if the text is unreadable. -/
def understoodPlaces (text : String) : List Nat :=
  match (lexemes (visibleCharacters text)).mapM Lexeme.read with
  | .ok readings => productPlaces readings
  | .error _ => []

def withAsterisks (places : List Nat) (characters : List (Char × Nat)) : List Char :=
  characters.flatMap fun (c, place) => if place ∈ places then ['*', c] else [c]

theorem withAsterisks_cons (places : List Nat) (c : Char) (place : Nat)
    (rest : List (Char × Nat)) :
    withAsterisks places ((c, place) :: rest) =
      (if place ∈ places then ['*', c] else [c]) ++ withAsterisks places rest :=
  List.flatMap_cons

/-- The text with an asterisk wherever a multiplication is understood. -/
def writtenOut (text : String) : String :=
  String.ofList (withAsterisks (understoodPlaces text) text.toList.zipIdx)

/-- Where a character goes when asterisks are written in front of some places. -/
def movedPlace (places : List Nat) (place : Nat) : Nat :=
  place + Nat.count (· ∈ places) (place + 1)

/-- A placed value that has moved, with an asterisk in front of it if its place is among some. -/
def marked {α : Type} (asterisk : α) (places : List Nat) (item : Placed α) : List (Placed α) :=
  if item.position ∈ places then
    [⟨asterisk, movedPlace places item.position - 1⟩, ⟨item.value, movedPlace places item.position⟩]
  else [⟨item.value, movedPlace places item.position⟩]

theorem movedPlace_strictMono (places : List Nat) : StrictMono (movedPlace places) := by
  intro place place' hlt
  exact Nat.add_lt_add_of_lt_of_le hlt (Nat.count_monotone _ (Nat.succ_le_succ hlt.le))

theorem movedPlace_of_mem {places : List Nat} {place : Nat} (hmem : place ∈ places) :
    movedPlace places place = place + Nat.count (· ∈ places) place + 1 := by
  rw [movedPlace, Nat.count_succ, if_pos hmem]
  rfl

theorem movedPlace_of_notMem {places : List Nat} {place : Nat} (hmem : place ∉ places) :
    movedPlace places place = place + Nat.count (· ∈ places) place := by
  rw [movedPlace, Nat.count_succ, if_neg hmem]
  rfl

/-! ### The characters of the text -/

theorem placedFrom_withAsterisks (places : List Nat) (characters : List Char) (offset : Nat) :
    placedFrom (offset + Nat.count (· ∈ places) offset)
        (withAsterisks places (characters.zipIdx offset)) =
      (placedFrom offset characters).flatMap (marked '*' places) := by
  induction characters generalizing offset with
  | nil => rfl
  | cons c characters ih =>
      have hrest := ih (offset + 1)
      simp only [placedFrom, withAsterisks_cons, List.zipIdx_cons, List.flatMap_cons,
        List.map_cons, marked, Nat.count_succ] at hrest ⊢
      by_cases hmem : offset ∈ places
      · have hnext : offset + 1 + (Nat.count (· ∈ places) offset + 1) =
            offset + Nat.count (· ∈ places) offset + 1 + 1 := by omega
        rw [if_pos hmem, hnext] at hrest
        rw [if_pos hmem, if_pos hmem, movedPlace_of_mem hmem, ← hrest]
        rfl
      · have hnext : offset + 1 + (Nat.count (· ∈ places) offset + 0) =
            offset + Nat.count (· ∈ places) offset + 1 := by omega
        rw [if_neg hmem, hnext] at hrest
        rw [if_neg hmem, if_neg hmem, movedPlace_of_notMem hmem, ← hrest]
        rfl

theorem visible_flatMap_marked {places : List Nat} {items : List (Placed Char)}
    (hvisible : ∀ item ∈ items, item.position ∈ places → Text.isBlank item.value = false) :
    (items.flatMap (marked '*' places)).filter (fun item => !Text.isBlank item.value) =
      (items.filter fun item => !Text.isBlank item.value).flatMap (marked '*' places) := by
  induction items with
  | nil => rfl
  | cons item items ih =>
      obtain ⟨hitem, hitems⟩ := List.forall_mem_cons.mp hvisible
      have hstar : Text.isBlank '*' = false := by decide
      rw [List.flatMap_cons, List.filter_append, ih hitems]
      cases hblank : Text.isBlank item.value with
      | true =>
          have hmem : item.position ∉ places := fun hmem => by simp [hitem hmem] at hblank
          rw [List.filter_cons_of_neg (by simp [hblank]), marked, if_neg hmem]
          simp [hblank]
      | false =>
          rw [List.filter_cons_of_pos (by simp [hblank]), List.flatMap_cons]
          congr 1
          rw [marked]
          split <;> simp [hblank, hstar]

theorem length_withAsterisks (places : List Nat) (characters : List Char) (offset : Nat) :
    (withAsterisks places (characters.zipIdx offset)).length + Nat.count (· ∈ places) offset =
      characters.length + Nat.count (· ∈ places) (offset + characters.length) := by
  induction characters generalizing offset with
  | nil => rfl
  | cons c characters ih =>
      have hrest := ih (offset + 1)
      have hnext : offset + (characters.length + 1) = offset + 1 + characters.length := by omega
      rw [Nat.count_succ] at hrest
      rw [List.zipIdx_cons, withAsterisks_cons, List.length_append, List.length_cons, hnext]
      by_cases hmem : offset ∈ places
      · rw [if_pos hmem] at hrest ⊢
        rw [List.length_cons, List.length_singleton]
        omega
      · rw [if_neg hmem] at hrest ⊢
        rw [List.length_singleton]
        omega

/-! ### Where the multiplications are -/

variable {places : List Nat} {characters : List (Placed Char)} {readings : List (Placed Token)}

theorem mem_productPlaces {place : Nat} :
    place ∈ productPlaces readings ↔ ∃ (i : Nat) (hi : i + 1 < readings.length),
      readings[i].value.impliesProduct readings[i + 1].value = true ∧
        readings[i + 1].position = place := by
  simp only [productPlaces, List.mem_map, List.mem_filter]
  constructor
  · rintro ⟨pair, ⟨hmem, hproduct⟩, rfl⟩
    obtain ⟨i, hi, rfl⟩ := List.mem_iff_getElem.mp hmem
    rw [List.length_zip, List.length_tail] at hi
    refine ⟨i, by omega, ?_⟩
    simpa using hproduct
  · rintro ⟨i, hi, hproduct, rfl⟩
    have hzip : i < (readings.zip readings.tail).length := by
      rw [List.length_zip, List.length_tail]
      omega
    refine ⟨_, ⟨List.getElem_mem hzip, ?_⟩, ?_⟩
    · simpa using hproduct
    · simp

theorem isChain_productPlaces (hsorted : readings.Pairwise (·.position < ·.position)) :
    readings.IsChain fun left right =>
      right.position ∈ productPlaces readings ↔ left.value.impliesProduct right.value = true := by
  rw [List.isChain_iff_getElem]
  intro i hi
  rw [mem_productPlaces]
  constructor
  · rintro ⟨j, hj, hproduct, hplace⟩
    have hlt := List.pairwise_iff_getElem.mp hsorted
    rcases Nat.lt_trichotomy j i with hji | rfl | hij
    · exact absurd hplace (hlt (j + 1) (i + 1) hj hi (by omega)).ne
    · exact hproduct
    · exact absurd hplace (hlt (i + 1) (j + 1) hi hj (by omega)).ne'
  · exact fun hproduct => ⟨i, hi, hproduct, rfl⟩

theorem first_notMem_productPlaces {first : Placed Token} {rest : List (Placed Token)}
    (hsorted : (first :: rest).Pairwise (·.position < ·.position)) :
    first.position ∉ productPlaces (first :: rest) := by
  rw [mem_productPlaces]
  rintro ⟨i, hi, -, hplace⟩
  have hlt := List.pairwise_iff_getElem.mp hsorted 0 (i + 1) (by simp) hi (by omega)
  exact hlt.ne hplace.symm

/-! ### Longest runs beside an asterisk -/

theorem Spells.not_asterisk {run : List Char} {token longer : Token} (hspells : Spells run token)
    (hends : token.endsOperand = true) : ¬Spells (run ++ ['*']) longer := by
  intro hlonger
  cases token with
  | number value =>
      obtain ⟨c, hc⟩ := List.exists_mem_of_ne_nil _ hspells.ne_nil
      have hnumeric := hspells.numeric_of_number c hc
      rcases hlonger.numeric with hall | hnone
      · exact absurd (hall '*' (by simp)) (by decide)
      · simp [hnone c (List.mem_append_left _ hc)] at hnumeric
  | closeParen =>
      cases hspells with
      | symbol hmem =>
          obtain rfl := (by decide : ∀ symbol ∈ symbols, symbol.2 = .closeParen → symbol.1 = ')')
            _ hmem rfl
          rcases hlonger.of_two with h | h | ⟨h, -⟩ <;> exact absurd h (by decide)
  | _ => cases hends

theorem Spells.of_asterisk {run : List Char} {token : Token} (hspells : Spells ('*' :: run) token) :
    ∃ operator, token = .operator operator := by
  generalize hchars : '*' :: run = characters at hspells
  have hstar : '*' ∈ characters := by rw [← hchars]; exact List.mem_cons_self
  cases hspells with
  | integer _ hdigits => exact absurd (hdigits _ hstar) (by decide)
  | decimal hne hdigits hvalue =>
      exact absurd ((Spells.decimal hne hdigits hvalue).numeric_of_number _ hstar) (by decide)
  | name _ hletters => exact absurd (hletters _ hstar) (by decide)
  | power => exact ⟨_, rfl⟩
  | symbol hmem =>
      obtain ⟨rfl, -⟩ := List.cons.inj hchars
      exact ⟨.mul, (by decide : ∀ symbol ∈ symbols, symbol.1 = '*' → symbol.2 = .operator .mul)
        _ hmem rfl⟩

theorem not_juxtaposed_operator (left : Token) (operator : Operator) :
    ¬Juxtaposed left (.operator operator) := by
  rintro ⟨⟩

theorem operator_not_juxtaposed (operator : Operator) (right : Token) :
    ¬Juxtaposed (.operator operator) right := by
  rintro ⟨⟩

theorem Spells.ne_asterisk {c : Char} {run : List Char} {left token : Token}
    (hspells : Spells (c :: run) token) (hproduct : left.impliesProduct token = true) :
    c ≠ '*' := by
  rintro rfl
  obtain ⟨operator, rfl⟩ := hspells.of_asterisk
  exact not_juxtaposed_operator left operator (impliesProduct_iff.mp hproduct)

theorem endsOperand_of_impliesProduct {left right : Token}
    (hproduct : left.impliesProduct right = true) : left.endsOperand = true := by
  rw [impliesProduct_iff] at hproduct
  cases hproduct <;> rfl

/-- An asterisk is a run by itself, unless another one follows. -/
theorem Cuts.asterisk (hcuts : Cuts characters readings)
    (hnext : ∀ item ∈ characters.head?, item.value ≠ '*') (place : Nat) :
    Cuts (⟨'*', place⟩ :: characters) (⟨.operator .mul, place⟩ :: readings) := by
  have hspells : Spells (valuesOf [⟨'*', place⟩]) (.operator .mul) := .symbol (by simp [symbols])
  have hlongest : Longest (valuesOf [⟨'*', place⟩]) (valuesOf characters) := by
    show Longest ['*'] (valuesOf characters)
    refine .symbol (by decide) (by decide) fun _ hstar => ?_
    rw [valuesOf, List.head?_map, Option.map_eq_some_iff] at hstar
    obtain ⟨item, hitem, hvalue⟩ := hstar
    exact hnext item hitem hvalue
  exact .cons hspells hlongest hcuts

/-- A run stays the longest one if an asterisk is written only behind the end of an operand. -/
theorem Longest.marked {run : List Char} {token : Token} (hspells : Spells run token)
    (hlongest : Longest run (valuesOf characters)) (hcuts : Cuts characters readings)
    (hends : ∀ next ∈ readings.head?, next.position ∈ places → token.endsOperand = true) :
    Longest run (valuesOf (characters.flatMap (marked '*' places))) := by
  rw [longest_iff hspells] at hlongest ⊢
  cases hcuts with
  | nil => exact hlongest
  | @cons first others rest next readings =>
      rw [List.cons_append, List.flatMap_cons, Formula.marked]
      split
      · next hmem =>
        intro c hc longer
        obtain rfl : '*' = c := by simpa [valuesOf] using hc
        exact hspells.not_asterisk (hends _ rfl hmem)
      · intro c hc
        exact hlongest c (by simpa [valuesOf] using hc)

theorem flatMap_marked_of_notMem {α : Type} {asterisk : α} {items : List (Placed α)}
    (hnone : ∀ item ∈ items, item.position ∉ places) :
    items.flatMap (marked asterisk places) =
      items.map fun item => ⟨item.value, movedPlace places item.position⟩ := by
  induction items with
  | nil => rfl
  | cons item items ih =>
      obtain ⟨hitem, hitems⟩ := List.forall_mem_cons.mp hnone
      rw [List.flatMap_cons, marked, if_neg hitem, ih hitems, List.map_cons]
      rfl

/-- Asterisks are written only where a reading starts. -/
def Starts (places : List Nat) (characters : List (Placed Char)) (readings : List (Placed Token)) :
    Prop :=
  ∀ item ∈ characters, item.position ∈ places → item.position ∈ readings.map (·.position)

theorem Cuts.starts {first : Placed Char} {others rest : List (Placed Char)} {token : Token}
    (hrest : Cuts rest readings)
    (hsorted : ((first :: others ++ rest).map (·.position)).Pairwise (· < ·))
    (hstarts : Starts places (first :: others ++ rest) (⟨token, first.position⟩ :: readings)) :
    (∀ item ∈ others, item.position ∉ places) ∧ Starts places rest readings := by
  rw [List.map_append, List.map_cons, List.cons_append, List.pairwise_cons,
    List.pairwise_append] at hsorted
  obtain ⟨hlt, -, -, hltRest⟩ := hsorted
  have hbehind : ∀ item ∈ others ++ rest, item.position ∈ places →
      item.position ∈ readings.map (·.position) := by
    intro item hmem hplace
    have hposition := hstarts item (List.mem_cons_of_mem _ hmem) hplace
    rw [List.map_cons, List.mem_cons] at hposition
    refine hposition.resolve_left (hlt _ ?_).ne'
    rw [← List.map_append]
    exact List.mem_map_of_mem hmem
  refine ⟨fun item hmem hplace => ?_, fun item hmem => hbehind item (List.mem_append_right _ hmem)⟩
  have hposition := hbehind item (List.mem_append_left _ hmem) hplace
  exact (hltRest _ (List.mem_map_of_mem hmem) _
    (hrest.positions_sublist.subset hposition)).false

/-- Cut characters stay cut, and each asterisk is read as a multiplication. -/
theorem Cuts.marked (hcuts : Cuts characters readings)
    (hsorted : (characters.map (·.position)).Pairwise (· < ·))
    (hstarts : Starts places characters readings)
    (hchain : readings.IsChain fun left right =>
      right.position ∈ places → left.value.impliesProduct right.value = true)
    (hfirst : ∀ first ∈ readings.head?, first.position ∈ places →
      ∃ left : Token, left.impliesProduct first.value = true) :
    Cuts (characters.flatMap (Formula.marked '*' places))
      (readings.flatMap (Formula.marked (.operator .mul) places)) := by
  induction hcuts with
  | nil => exact .nil
  | @cons first others rest token readings hspells hlongest hrest ih =>
      obtain ⟨hothers, hstartsRest⟩ := hrest.starts hsorted hstarts
      have hnext : ∀ next ∈ readings.head?, next.position ∈ places →
          token.impliesProduct next.value = true := by
        intro next hnext
        obtain ⟨after, rfl⟩ := List.head?_eq_some_iff.mp hnext
        exact (List.isChain_cons_cons.mp hchain).1
      have hsortedRest : (rest.map (·.position)).Pairwise (· < ·) :=
        hsorted.sublist ((List.sublist_append_right _ _).map _)
      have hcutsRest := ih hsortedRest hstartsRest hchain.of_cons
        fun next hmem hplace => ⟨token, hnext next hmem hplace⟩
      have hmoved : valuesOf (⟨first.value, movedPlace places first.position⟩ ::
          others.flatMap (Formula.marked '*' places)) = valuesOf (first :: others) := by
        rw [flatMap_marked_of_notMem hothers]
        simp [valuesOf]
      have hlongest := hlongest.marked hspells hrest fun next hmem hplace =>
        endsOperand_of_impliesProduct (hnext next hmem hplace)
      rw [← hmoved] at hlongest
      have hcuts := Cuts.cons (hmoved ▸ hspells) hlongest hcutsRest
      rw [List.cons_append] at hcuts ⊢
      rw [List.flatMap_cons, List.flatMap_append, List.flatMap_cons, Formula.marked, Formula.marked]
      split
      · next hmem =>
        obtain ⟨left, hproduct⟩ := hfirst _ rfl hmem
        refine hcuts.asterisk (fun item hitem => ?_) _
        obtain rfl := Option.some.inj hitem
        exact @Spells.ne_asterisk first.value (valuesOf others) _ _ hspells hproduct
      · exact hcuts

/-! ### The tokens of the text -/

theorem withProducts_marked {first : Placed Token} {rest : List (Placed Token)}
    (hchain : (first :: rest).IsChain fun left right =>
      right.position ∈ places ↔ left.value.impliesProduct right.value = true) :
    withProducts (⟨first.value, movedPlace places first.position⟩ ::
        rest.flatMap (marked (.operator .mul) places)) =
      ⟨first.value, movedPlace places first.position⟩ ::
        rest.flatMap (marked (.operator .mul) places) := by
  induction rest generalizing first with
  | nil => rfl
  | cons next rest ih =>
      obtain ⟨hboth, hchain⟩ := List.isChain_cons_cons.mp hchain
      have hrest := ih hchain
      rw [List.flatMap_cons, marked]
      split
      · next hmem =>
        rw [List.cons_append, List.cons_append, List.nil_append,
          withProducts_of_apart (not_juxtaposed_operator _ _),
          withProducts_of_apart (operator_not_juxtaposed _ _), hrest]
      · next hmem =>
        rw [List.cons_append, List.nil_append, withProducts_of_apart, hrest]
        rw [← impliesProduct_iff, ← hboth]
        exact hmem

theorem alike_marked {first : Placed Token} {rest : List (Placed Token)}
    (hchain : (first :: rest).IsChain fun left right =>
      right.position ∈ places ↔ left.value.impliesProduct right.value = true)
    {stop stop' : Nat} (hstop : movedPlace places stop = stop') (loose : Bool) :
    Alike (fun place place' => movedPlace places place = place') loose
      (withProducts (first :: rest) ++ [⟨.finish, stop⟩])
      (⟨first.value, movedPlace places first.position⟩ ::
        rest.flatMap (marked (.operator .mul) places) ++ [⟨.finish, stop'⟩]) := by
  induction rest generalizing first loose with
  | nil => exact .cons rfl (.cons hstop .nil)
  | cons next rest ih =>
      obtain ⟨hboth, hchain⟩ := List.isChain_cons_cons.mp hchain
      rw [List.flatMap_cons, marked, withProducts]
      split
      · next hproduct =>
        rw [if_pos (hboth.mpr hproduct)]
        refine .cons rfl ?_
        rw [endsOperand_of_impliesProduct hproduct]
        exact .product (ih hchain false)
      · next hproduct =>
        rw [if_neg (hproduct ∘ hboth.mp)]
        exact .cons rfl (ih hchain _)

theorem exists_visible_of_mem_understoodPlaces {text : String} {place : Nat}
    (hmem : place ∈ understoodPlaces text) :
    ∃ item ∈ visibleCharacters text, item.position = place := by
  rw [understoodPlaces] at hmem
  split at hmem
  · next readings hread =>
    obtain ⟨i, hi, -, rfl⟩ := mem_productPlaces.mp hmem
    have hsublist := (mapM_read_eq_ok.mp hread).positions_sublist
    exact List.mem_map.mp (hsublist.subset (List.mem_map_of_mem (List.getElem_mem hi)))
  · cases hmem

theorem visibleCharacters_writtenOut (text : String) :
    visibleCharacters (writtenOut text) =
      (visibleCharacters text).flatMap (marked '*' (understoodPlaces text)) := by
  have hall := placedFrom_withAsterisks (understoodPlaces text) text.toList 0
  rw [Nat.count_zero, Nat.add_zero] at hall
  rw [visibleCharacters_eq, visibleCharacters_eq, writtenOut, String.toList_ofList, visibleFrom,
    hall, visibleFrom]
  refine visible_flatMap_marked fun item hitem hmem => ?_
  obtain ⟨item', hvisible, hposition⟩ := exists_visible_of_mem_understoodPlaces hmem
  rw [mem_visibleCharacters, hposition, mem_placedFrom_zero.mp hitem, Option.some.injEq] at hvisible
  rw [hvisible.1]
  simpa using hvisible.2

def placeWrittenOut (text : String) (place : Nat) : Nat :=
  movedPlace (understoodPlaces text) place

theorem getElem?_writtenOut {text : String} {place : Nat} {c : Char}
    (hplace : text.toList[place]? = some c) :
    (writtenOut text).toList[placeWrittenOut text place]? = some c := by
  have hall := placedFrom_withAsterisks (understoodPlaces text) text.toList 0
  rw [Nat.count_zero, Nat.add_zero] at hall
  have hmem : ⟨c, place⟩ ∈ placedFrom 0 text.toList := mem_placedFrom_zero.mpr hplace
  have hmoved : ⟨c, placeWrittenOut text place⟩ ∈
      (placedFrom 0 text.toList).flatMap (marked '*' (understoodPlaces text)) := by
    refine List.mem_flatMap.mpr ⟨_, hmem, ?_⟩
    rw [marked]
    split
    · exact List.mem_cons_of_mem _ (List.mem_singleton_self _)
    · exact List.mem_singleton_self _
  rw [← hall, mem_placedFrom_zero] at hmoved
  rwa [writtenOut, String.toList_ofList]

theorem placeWrittenOut_length (text : String) :
    placeWrittenOut text text.length = (writtenOut text).length := by
  have hend : text.length ∉ understoodPlaces text := by
    intro hmem
    obtain ⟨item, hvisible, hposition⟩ := exists_visible_of_mem_understoodPlaces hmem
    rw [mem_visibleCharacters, hposition] at hvisible
    obtain ⟨hlt, -⟩ := List.getElem?_eq_some_iff.mp hvisible.1
    exact hlt.ne String.length_toList.symm
  have hlength := length_withAsterisks (understoodPlaces text) text.toList 0
  rw [Nat.count_zero, Nat.add_zero, Nat.zero_add, String.length_toList] at hlength
  rw [placeWrittenOut, movedPlace_of_notMem hend, writtenOut, String.length_ofList, hlength]

/-- The text with its multiplications written out has the same tokens, which have moved with it. -/
theorem tokenize_writtenOut {text : String} {tokens : List (Placed Token)}
    (htokens : tokenize text = .ok tokens) :
    ∃ tokens', tokenize (writtenOut text) = .ok tokens' ∧
      Alike (fun place place' => placeWrittenOut text place = place') false tokens tokens' ∧
      tokens.getLast? = some ⟨.finish, text.length⟩ ∧
      tokens'.getLast? = some ⟨.finish, (writtenOut text).length⟩ := by
  obtain ⟨readings, hcuts, rfl⟩ := tokenize_eq_ok.mp htokens
  have hsorted := sorted_visibleCharacters text
  have hplaces : understoodPlaces text = productPlaces readings := by
    rw [understoodPlaces, mapM_read_eq_ok.mpr hcuts]
  have hreadings : readings.Pairwise (·.position < ·.position) :=
    List.pairwise_map.mp (hsorted.sublist hcuts.positions_sublist)
  have hchain := isChain_productPlaces hreadings
  have hmarked : Cuts (visibleCharacters (writtenOut text))
      (readings.flatMap (marked (.operator .mul) (productPlaces readings))) := by
    rw [visibleCharacters_writtenOut, hplaces]
    refine hcuts.marked hsorted (fun item _ hmem => ?_) (hchain.imp fun _ _ => Iff.mp) ?_
    · obtain ⟨i, hi, -, hposition⟩ := mem_productPlaces.mp hmem
      exact hposition ▸ List.mem_map_of_mem (List.getElem_mem hi)
    · intro first hfirst hmem
      obtain ⟨rest, rfl⟩ := List.head?_eq_some_iff.mp hfirst
      exact absurd hmem (first_notMem_productPlaces hreadings)
  refine ⟨_, tokenize_eq_ok.mpr ⟨_, hmarked, rfl⟩, ?_, by simp, by simp⟩
  have hend := placeWrittenOut_length text
  have hmove : placeWrittenOut text = movedPlace (productPlaces readings) := by
    funext place
    rw [placeWrittenOut, hplaces]
  rw [hmove] at hend ⊢
  cases readings with
  | nil => exact .cons hend .nil
  | cons first rest =>
      rw [List.flatMap_cons, marked, if_neg (first_notMem_productPlaces hreadings),
        List.cons_append, List.nil_append, withProducts_marked hchain]
      exact alike_marked hchain hend false

/-! ### Main statement -/

def ParseError.relocate (move : Nat → Nat) : ParseError → ParseError
  | malformed place fault => malformed (move place) fault
  | error => error

theorem ParseError.Alike.eq_relocate {move : Nat → Nat} {error error' : ParseError}
    (h : error.Alike (fun place place' => move place = place') error') :
    error' = error.relocate move := by
  cases h with
  | malformed fault hplace => rw [← hplace, relocate]
  | unplaced hunplaced =>
      cases error with
      | malformed place fault => exact absurd rfl (hunplaced place fault)
      | _ => rfl

/--
A text whose tokens can be read means the same with its multiplications written out: it has the
same tokens, and for every limit of nodes both texts are compiled to the same tree, with the same
number of nodes and the same values, or are rejected for the same reason at the same character.
-/
theorem compileWith_writtenOut {text : String} {tokens : List (Placed Token)}
    (htokens : tokenize text = .ok tokens) :
    (∃ tokens', tokenize (writtenOut text) = .ok tokens' ∧
      tokens'.map (·.value) = tokens.map (·.value)) ∧
    (StrictMono (placeWrittenOut text) ∧
      (∀ place c, text.toList[place]? = some c →
        (writtenOut text).toList[placeWrittenOut text place]? = some c) ∧
      placeWrittenOut text text.length = (writtenOut text).length) ∧
    ∀ maxNodes,
      (∃ program program', compileWith text maxNodes = .ok program ∧
        compileWith (writtenOut text) maxNodes = .ok program' ∧ program'.root = program.root ∧
        program'.nodeCount = program.nodeCount ∧
        ∀ t, program'.evaluate t = program.evaluate t) ∨
      ∃ error, compileWith text maxNodes = .error (.rejected error) ∧
        compileWith (writtenOut text) maxNodes =
          .error (.rejected (error.relocate (placeWrittenOut text))) := by
  obtain ⟨tokens', htokens', halike, hlast, hlast'⟩ := tokenize_writtenOut htokens
  refine ⟨⟨tokens', htokens', halike.values_eq.symm⟩, ⟨movedPlace_strictMono _,
    fun place c => getElem?_writtenOut, placeWrittenOut_length text⟩, fun maxNodes => ?_⟩
  have hend : placeWrittenOut text ((tokens.getLast?.map (·.position)).getD 0) =
      (tokens'.getLast?.map (·.position)).getD 0 := by
    rw [hlast, hlast', Option.map_some, Option.map_some, Option.getD_some, Option.getD_some,
      placeWrittenOut_length]
  have hparse := Parser.parse_alike halike hend maxNodes
  rw [compileWith_of_tokenize htokens, compileWith_of_tokenize htokens', Program.ofTokens,
    Program.ofTokens]
  generalize Parser.parse tokens maxNodes = outcome at hparse
  generalize Parser.parse tokens' maxNodes = outcome' at hparse
  cases hparse with
  | @ok result _ h =>
      subst h
      refine .inl ⟨⟨text, result.1, result.2⟩, ⟨writtenOut text, result.1, result.2⟩, rfl, rfl, rfl,
        rfl, fun t => ?_⟩
      rw [Program.evaluate, Program.evaluate]
  | @error error _ h =>
      rw [h.eq_relocate]
      exact .inr ⟨error, rfl, rfl⟩

/-- Twice the time, with and without an asterisk. -/
theorem compileWith_writtenOut_twice :
    tokenize "2 t" = .ok [⟨.number 2, 0⟩, ⟨.operator .mul, 2⟩, ⟨.name "t", 2⟩, ⟨.finish, 3⟩] ∧
      ∃ tokens', tokenize (writtenOut "2 t") = .ok tokens' ∧
        tokens'.map (·.value) = [.number 2, .operator .mul, .name "t", .finish] := by
  have htokens : tokenize "2 t" =
      .ok [⟨.number 2, 0⟩, ⟨.operator .mul, 2⟩, ⟨.name "t", 2⟩, ⟨.finish, 3⟩] := by
    decide +kernel
  exact ⟨htokens, (compileWith_writtenOut htokens).1⟩

end Waveform.Formula
