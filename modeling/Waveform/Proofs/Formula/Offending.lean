import Mathlib.Data.List.Basic
import Waveform.Proofs.Formula.Blame
import Waveform.Proofs.Formula.Correspondence
import Waveform.Proofs.Formula.Lexing

/-!
# Where errors are reported

A malformed sequence of tokens is reported at the first token with which no sentence goes on. Each
rule of the parser is followed with the part of the grammar that it reads: it ends behind a phrase
of the part, or with an error of the part. A rule that gives up leaves the next token to the rule
around it, and what the scanner expects there tells whether that rule goes on with it. Behind a sum
there is never an operator, so a closing parenthesis, a comma and the end are all that can go on.
Main statement: `parse_blames_first`.
-/

namespace Waveform.Formula

namespace Parser

/-! ### Limits and rules -/

variable {setting : Setting} {group exponent item : Rule} {rest : List (Placed Token)}

theorem count_limited {nodes : Nat} (error : ParseError) (h : setting.count nodes = .error error) :
    ∃ limit, error = .tooComplex limit := by
  rw [Setting.count] at h
  split at h
  · cases h
  · exact ⟨_, (Except.error.inj h).symm⟩

theorem heightAbove_limited {height : Nat} (error : ParseError)
    (h : heightAbove height = .error error) : ∃ limit, error = .tooComplex limit := by
  rw [heightAbove] at h
  split at h
  · cases h
  · exact ⟨_, (Except.error.inj h).symm⟩

def Follows (part : Part) (rule : Rule) : Prop :=
  ∀ start, .finish ∈ start.values →
    Ends part start.rest (fun step => step.next.rest) (rule start)

/-- No operator is left behind what a rule has read. -/
def Closed (rule : Rule) : Prop :=
  ∀ {start : Cursor} {step : Step start}, rule start = .ok step →
    ∀ operator place rest, step.next.rest ≠ ⟨.operator operator, place⟩ :: rest

/-! ### Primaries -/

theorem leaf_ends (tree : Expr) {start : Cursor} {token : Placed Token}
    (shorter : rest.length < start.rest.length) (hstart : start.rest = token :: rest)
    (hphrase : Phrase (.expression .primary) [token.value]) :
    Ends (.expression .primary) start.rest (fun step => step.next.rest)
      (leaf setting tree start rest shorter) := by
  rw [leaf]
  apply Ends.limited count_limited
  intro nodes
  exact .ok [token] hstart hphrase

theorem named_ends {name : String} {start : Cursor} {place : Nat}
    (shorter : rest.length < start.rest.length) (hstart : start.rest = ⟨.name name, place⟩ :: rest)
    (hafter : (wordsOf rest).head? ≠ some .openParen) (hfinish : .finish ∈ wordsOf rest) :
    Ends (.expression .primary) start.rest (fun step => step.next.rest)
      (named setting name start rest shorter) := by
  rw [named]
  split
  · next htime =>
    subst htime
    exact leaf_ends _ shorter hstart .time
  next htime =>
  split
  · next constant hconstant =>
    obtain rfl := Constant.name_of_ofName? hconstant
    exact leaf_ends _ shorter hstart (.constant constant)
  next hconstant =>
  split
  · next hfunction =>
    obtain ⟨function, hfunction⟩ := Option.isSome_iff_exists.mp hfunction
    obtain rfl := Elementary.name_of_ofName? hfunction
    cases rest with
    | nil => cases hfinish
    | cons next rest =>
        have hnext : next.value ≠ .openParen := fun heq => hafter (congrArg some heq)
        have huncalled : Uncalled (.name function.name) (wordsOf (next :: rest)) :=
          ⟨⟨function, rfl⟩, hafter⟩
        have htokens : start.rest = [] ++ ⟨.name function.name, place⟩ :: next :: rest := hstart
        rw [hstart] at htokens ⊢
        refine .error (.malformed _ htokens (.inr ⟨huncalled, rfl⟩) begins_primary ?_)
        exact fun brackets => Outlook.scan_uncalled function brackets hnext
  · next hfunction =>
    have hwords : wordsOf start.rest = [] ++ .name name :: wordsOf rest := by
      rw [hstart]
      rfl
    refine .error (.unknownIdentifier hwords hafter begins_primary htime hconstant ?_)
    simpa using hfunction

section

variable (setting : Setting) (hgroup : Follows (.expression .sum) group) (hclosed : Closed group)

include hgroup hclosed

theorem arguments_ends (name : String) {start : Cursor} (hfinish : .finish ∈ start.values) :
    Ends .arguments start.rest (fun read => read.next.rest)
      (arguments setting group name start) := by
  fun_induction arguments setting group name start with
  | case1 start ih =>
    apply (hgroup start hfinish).bind [] rfl (leads_argument _)
    intro argument read hargument htokens hphrase
    have hfinish := finish_mem_of_read hfinish htokens hphrase (by simp)
    have hclosed := hclosed hargument
    obtain ⟨tree, height, ⟨rest, nodes⟩, shorter⟩ := argument
    have hbegins : Begins .arguments (wordsOf read) := ⟨_, .lastArgument hphrase⟩
    have hscan := fun brackets => hphrase.scan (.call :: brackets)
    cases rest with
    | nil => cases hfinish
    | cons token rest =>
        obtain ⟨token, place⟩ := token
        cases token with
        | comma =>
            have hrest : .finish ∈ wordsOf rest := by simpa [wordsOf] using hfinish
            have hwhole : start.rest = (read ++ [⟨.comma, place⟩]) ++ rest := by simpa using htokens
            have hleads := leads_others hphrase (wordsOf rest)
            apply (ih ⟨tree, height, _, shorter⟩ place rest rfl hrest).bind _ hwhole
              (by rwa [wordsOf_append])
            intro others read' _ htokens' hphrase'
            refine .ok_append _ hwhole htokens' ?_
            rw [wordsOf_append, List.append_assoc]
            exact .argument hphrase hphrase'
        | closeParen =>
            have hclose : ⟨.closeParen, place⟩ :: rest = [⟨.closeParen, place⟩] ++ rest := rfl
            exact .ok_append read htokens hclose (.lastArgument hphrase)
        | operator operator => exact absurd rfl (hclosed operator place rest)
        | _ =>
            exact .error (.offending _ htokens hbegins fun brackets => ⟨_, hscan brackets, rfl⟩)

theorem call_ends (name : String) (place place' : Nat) {start : Cursor}
    (hfinish : .finish ∈ start.values) :
    Ends (.expression .primary) (⟨.name name, place⟩ :: ⟨.openParen, place'⟩ :: start.rest)
      (fun step => step.next.rest) (call setting group name start) := by
  rw [call]
  split
  · next hfunction =>
    exact .error (.unknownFunction (List.nil_append _).symm begins_primary hfunction)
  next function hfunction =>
  obtain rfl := Elementary.name_of_ofName? hfunction
  have harguments := arguments_ends setting hgroup hclosed function.name hfinish
  rw [argumentList]
  split
  · next hrest => exact .error (.arityMismatch _ _ _)
  next hrest =>
  apply harguments.bind [⟨.name function.name, place⟩, ⟨.openParen, place'⟩] rfl
    (leads_call function (head?_wordsOf_ne hrest))
  intro read before _ htokens hphrase
  split
  · apply Ends.limited count_limited
    intro nodes
    apply Ends.limited heightAbove_limited
    intro above
    rw [htokens]
    exact .ok (⟨.name function.name, place⟩ :: ⟨.openParen, place'⟩ :: before) rfl
      (.call function hphrase)
  · exact .error (.arityMismatch _ _ _)

theorem primary_follows : Follows (.expression .primary) (primary setting group) := by
  intro start hfinish
  obtain ⟨rest, nodes⟩ := start
  cases rest with
  | nil => cases hfinish
  | cons token rest =>
      obtain ⟨token, place⟩ := token
      cases token with
      | number value => exact leaf_ends _ _ rfl (.number value)
      | name name =>
          have hrest : .finish ∈ wordsOf rest := by simpa [Cursor.values, wordsOf] using hfinish
          cases rest with
          | nil => cases hrest
          | cons second rest =>
              obtain ⟨second, place'⟩ := second
              cases second with
              | openParen =>
                  have hrest : .finish ∈ wordsOf rest := by simpa [wordsOf] using hrest
                  have hrest : .finish ∈ (⟨rest, nodes⟩ : Cursor).values := hrest
                  have hcall := call_ends setting hgroup hclosed name place place' hrest
                  exact hcall.map _ fun _ => rfl
              | _ => exact named_ends _ rfl (by simp [wordsOf]) hrest
      | openParen =>
          have hrest : .finish ∈ wordsOf rest := by simpa [Cursor.values, wordsOf] using hfinish
          apply (hgroup ⟨rest, nodes⟩ hrest).bind [⟨.openParen, place⟩] rfl (leads_group _)
          intro inner read hinner htokens hphrase
          have hafter := finish_mem_of_read hrest htokens hphrase (by simp)
          have hclosed := hclosed hinner
          obtain ⟨tree, height, ⟨after, nodes⟩, shorter⟩ := inner
          have hbegins : Begins (.expression .primary) (.openParen :: wordsOf read) :=
            ⟨_, .group hphrase⟩
          have hscan := fun brackets => hphrase.scan (.group :: brackets)
          cases after with
          | nil => cases hafter
          | cons token after =>
              obtain ⟨token, place'⟩ := token
              have hwhole : ⟨.openParen, place⟩ :: rest =
                  (⟨.openParen, place⟩ :: read) ++ ⟨token, place'⟩ :: after :=
                congrArg _ htokens
              cases token with
              | closeParen =>
                  refine .ok (⟨.openParen, place⟩ :: (read ++ [⟨.closeParen, place'⟩]))
                    (by simpa using hwhole) ?_
                  change Phrase _ (.openParen :: wordsOf (read ++ _))
                  rw [wordsOf_append]
                  exact .group hphrase
              | operator operator => exact absurd rfl (hclosed operator place' after)
              | _ =>
                  exact .error (.offending _ hwhole hbegins fun brackets =>
                    ⟨_, hscan brackets, rfl⟩)
      | _ =>
          refine .error (.offending _ (List.nil_append _).symm begins_primary fun brackets => ?_)
          exact ⟨_, rfl, rfl⟩

/-! ### Operators -/

theorem operand_follows : Follows (.expression .operand) (operand setting group) := by
  intro start hfinish
  obtain ⟨rest, nodes⟩ := start
  have hplain : (wordsOf rest).head? ≠ some (.operator .sub) →
      Ends (.expression .operand) rest (fun step => step.next.rest)
        (primary setting group ⟨rest, nodes⟩) := fun hfirst =>
    (primary_follows setting hgroup hclosed ⟨rest, nodes⟩ hfinish).lift (leads_plain hfirst)
      fun words => .plain
  cases rest with
  | nil => exact hplain (by simp [wordsOf])
  | cons token rest =>
      obtain ⟨token, place⟩ := token
      cases token with
      | operator operator =>
          cases operator with
          | sub =>
              have hrest : .finish ∈ (⟨rest, nodes⟩ : Cursor).values := by
                simpa [Cursor.values] using hfinish
              have hprimary := primary_follows setting hgroup hclosed ⟨rest, nodes⟩ hrest
              apply hprimary.bind [⟨.operator .sub, place⟩] rfl (leads_negative _)
              intro inner read _ htokens hphrase
              split
              · exact .ok_append [⟨.operator .sub, place⟩] rfl htokens (.negative hphrase)
              · apply Ends.limited count_limited
                intro first
                apply Ends.limited count_limited
                intro second
                apply Ends.limited heightAbove_limited
                intro above
                exact .ok_append [⟨.operator .sub, place⟩] rfl htokens (.negative hphrase)
          | _ => exact hplain (by simp [wordsOf])
      | _ => exact hplain (by simp [wordsOf])

theorem powerOf_follows (hexponent : Follows (.expression .power) exponent) :
    Follows (.expression .power) (powerOf setting group exponent) := by
  intro start hfinish
  have hoperand := operand_follows setting hgroup hclosed start hfinish
  apply hoperand.bind [] rfl (leads_base _)
  intro base read _ htokens hphrase
  have hrest := finish_mem_of_read hfinish htokens hphrase (by simp)
  split
  · next place rest hnext =>
    rw [hnext] at hrest htokens
    have hrest : .finish ∈ wordsOf rest := by simpa [wordsOf] using hrest
    have hwhole : start.rest = (read ++ [⟨.operator .pow, place⟩]) ++ rest := by
      simpa using htokens
    have hleads := leads_exponent hphrase (wordsOf rest)
    apply (hexponent ⟨rest, base.next.nodes⟩ hrest).bind _ hwhole (by rwa [wordsOf_append])
    intro raised read' _ htokens' hphrase'
    apply Ends.limited count_limited
    intro nodes
    apply Ends.limited heightAbove_limited
    intro above
    refine .ok_append _ hwhole htokens' ?_
    rw [wordsOf_append, List.append_assoc]
    exact .raised hphrase hphrase'
  · exact .ok read htokens (.single hphrase)

end

theorem joinFrom_ends {level : Level} (hitem : Follows (.expression level.operand) item)
    {start : Cursor} {left : Step start} {read : List (Placed Token)}
    (htokens : start.rest = read ++ left.next.rest)
    (hphrase : Phrase (.expression (.joined level)) (wordsOf read))
    (hfinish : .finish ∈ wordsOf left.next.rest) :
    Ends (.expression (.joined level)) start.rest (fun step => step.next.rest)
      (joinFrom setting level.fits item left) := by
  fun_induction joinFrom setting level.fits item left generalizing read with
  | case1 left operator place rest hrest hfits ih =>
    rw [hrest] at htokens hfinish
    have hfinish : .finish ∈ wordsOf rest := by simpa [wordsOf] using hfinish
    have hwhole : start.rest = (read ++ [⟨.operator operator, place⟩]) ++ rest := by
      simpa using htokens
    have hleads := leads_joint hphrase hfits (wordsOf rest)
    apply (hitem ⟨rest, left.next.nodes⟩ hfinish).bind _ hwhole (by rwa [wordsOf_append])
    intro right read' _ htokens' hphrase'
    apply Ends.limited count_limited
    intro nodes
    apply Ends.limited heightAbove_limited
    intro above
    have hread : start.rest =
        (read ++ ⟨.operator operator, place⟩ :: read') ++ right.next.rest := by
      rw [hwhole, List.append_assoc, List.append_assoc]
      exact congrArg (fun after => read ++ ⟨.operator operator, place⟩ :: after) htokens'
    have hjoined : Phrase (.expression (.joined level))
        (wordsOf (read ++ ⟨.operator operator, place⟩ :: read')) := by
      rw [wordsOf_append]
      exact .joined hphrase hfits hphrase'
    have hafter := finish_mem_of_read hfinish htokens' hphrase' (by simp)
    exact ih right nodes above hread hjoined hafter
  | case2 left operator place rest hrest hfits => exact .ok read htokens hphrase
  | case3 left hrest => exact .ok read htokens hphrase

theorem joined_follows (level : Level) (hitem : Follows (.expression level.operand) item) :
    Follows (.expression (.joined level)) (joined setting level.fits item) := by
  intro start hfinish
  apply (hitem start hfinish).bind [] rfl (leads_first level _)
  intro left read _ htokens hphrase
  exact joinFrom_ends hitem htokens (.alone level hphrase)
    (finish_mem_of_read hfinish htokens hphrase (by simp))

theorem sumOf_follows {power : Rule} (hpower : Follows (.expression .power) power) :
    Follows (.expression .sum) (sumOf setting power) :=
  joined_follows .additive (joined_follows .multiplicative hpower)

theorem tooDeep_follows (part : Part) : Follows part tooDeep :=
  fun _ _ => .error (.tooComplex _)

/-- A sum that is read twice is left twice in front of the same token, which is no operator. -/
theorem sumOf_closed (setting : Setting) (levels : Nat) :
    Closed (sumOf setting (power setting levels)) := by
  intro start step hstep operator place rest hrest
  have hsetting : setting.Alike Eq setting := ⟨rfl, rfl⟩
  have hstart : start.Alike Eq start := ⟨.refl false start.rest, rfl⟩
  have hsame := sumOf_alike hsetting (power_alike hsetting levels) hstart
  rw [hstep] at hsame
  cases hsame with
  | ok hsame => exact Bool.noConfusion (hsame.next.stops operator place rest hrest)

theorem power_follows (setting : Setting) (levels : Nat) :
    Follows (.expression .power) (power setting levels) := by
  induction levels with
  | zero =>
      have hclosed : Closed tooDeep := by
        intro start step hstep
        cases hstep
      exact powerOf_follows setting (tooDeep_follows _) hclosed (tooDeep_follows _)
  | succ levels ih =>
      exact powerOf_follows setting (sumOf_follows ih) (sumOf_closed setting levels) ih

/-! ### Whole sentences -/

/-- The token that a whole sequence of tokens is rejected for. -/
theorem parse_blames {tokens : List (Placed Token)} (hfinish : .finish ∈ wordsOf tokens)
    {maxNodes : Nat} {error : ParseError} (h : parse tokens maxNodes = .error error) :
    Blames .sentence tokens error := by
  let setting : Setting := ⟨maxNodes, (tokens.getLast?.map (·.position)).getD 0⟩
  have hformula : Ends (.expression .sum) tokens (fun step => step.next.rest)
      (formula setting ⟨tokens, 0⟩) :=
    sumOf_follows (power_follows setting (maxNesting - 1)) ⟨tokens, 0⟩ hfinish
  rw [parse] at h
  split at h
  · next hend =>
    cases tokens with
    | nil => cases hfinish
    | cons token rest =>
        obtain ⟨token, place⟩ := token
        cases token with
        | finish =>
            obtain rfl := Except.error.inj h
            exact .offending _ (List.nil_append _).symm begins_sentence fun _ => ⟨_, rfl, rfl⟩
        | _ => cases hend
  obtain herror | ⟨root, hroot, h⟩ := bind_eq_error.1 h
  · rw [herror] at hformula
    cases hformula with
    | error hblames => exact hblames.behind [] (leads_sentence _)
  rw [hroot] at hformula
  have hclosed := sumOf_closed setting (maxNesting - 1) hroot
  cases hformula with
  | ok read htokens hphrase =>
      have hafter := finish_mem_of_read hfinish htokens hphrase (by simp)
      obtain ⟨tree, height, ⟨after, nodes⟩, shorter⟩ := root
      have hbegins : Begins .sentence (wordsOf read) := ⟨_, .sentence hphrase⟩
      cases after with
      | nil => cases hafter
      | cons token after =>
          obtain ⟨token, place⟩ := token
          cases token with
          | finish => cases h
          | operator operator => exact absurd rfl (hclosed operator place after)
          | _ =>
              obtain rfl := Except.error.inj h
              exact .offending _ htokens hbegins fun _ => ⟨_, hphrase.scan [], rfl⟩

end Parser

/-! ### Main statement -/

/--
`before` is viable, and it is not any more with `token`; or with the token after it, if `token` is
the name of a function that is not called.
-/
structure FirstOffending (before : List Token) (token : Token) (after : List Token) : Prop where
  viable : Viable before
  offends : ¬Uncalled token after → ¬Viable (before ++ [token])
  offends_uncalled : Uncalled token after →
    ∃ next rest, after = next :: rest ∧ ¬Viable (before ++ [token, next])

theorem firstOffending_of_malformed {before after found : List Token} {token : Token}
    (hlast : (token :: after).getLast? = some .finish)
    (hfound : found = [] ∨ Uncalled token after ∧ found = after.take 1)
    (hbegins : Begins .sentence before) (hstuck : Stuck .sentence (before ++ token :: found)) :
    FirstOffending before token after := by
  refine ⟨hbegins, fun hcalled => ?_, fun huncalled => ?_⟩
  · obtain rfl := hfound.resolve_right fun h => hcalled h.1
    exact hstuck.not_viable
  · obtain ⟨function, rfl⟩ := huncalled.1
    cases after with
    | nil => cases hlast
    | cons next rest =>
        refine ⟨next, rest, rfl, ?_⟩
        obtain rfl | ⟨-, rfl⟩ := hfound
        · have hlonger := (hstuck.append [next]).not_viable
          rwa [List.append_assoc] at hlonger
        · exact hstuck.not_viable

/--
A text whose tokens are rejected for their syntax is rejected at the first token with which no
formula goes on, and a text that is rejected for a name is rejected for one behind tokens with which
formulas begin: the name of no function in a call, or that of nothing elsewhere.
-/
theorem parse_blames_first {text : String} {tokens : List (Placed Token)}
    (htokens : tokenize text = .ok tokens) (maxNodes : Nat) :
    (∀ place fault, Parser.parse tokens maxNodes = .error (.malformed place fault) →
      ∃ before token after, tokens = before ++ token :: after ∧ token.position = place ∧
        FirstOffending (wordsOf before) token.value (wordsOf after)) ∧
    (∀ name, Parser.parse tokens maxNodes = .error (.unknownFunction name) →
      ∃ before after, wordsOf tokens = before ++ .name name :: .openParen :: after ∧
        Viable before ∧ Elementary.ofName? name = none) ∧
    ∀ name, Parser.parse tokens maxNodes = .error (.unknownIdentifier name) →
      ∃ before after, wordsOf tokens = before ++ .name name :: after ∧
        after.head? ≠ some .openParen ∧ Viable before ∧ name ≠ timeName ∧
        Constant.ofName? name = none ∧ Elementary.ofName? name = none := by
  obtain ⟨readings, -, rfl⟩ := tokenize_eq_ok.mp htokens
  generalize hwhole : withProducts readings ++ [⟨.finish, text.length⟩] = tokens
  have hlast : (wordsOf tokens).getLast? = some .finish := by
    rw [← hwhole, wordsOf_append]
    exact List.getLast?_concat
  have hfinish : .finish ∈ wordsOf tokens := List.mem_of_getLast? hlast
  refine ⟨fun place fault herror => ?_, fun name herror => ?_, fun name herror => ?_⟩
  · cases Parser.parse_blames hfinish herror with
    | @malformed before after token found _ htokens hfound hbegins hstuck =>
        have hback : (token.value :: wordsOf after).getLast? = some .finish := by
          rw [← hlast, htokens, wordsOf_append]
          exact (List.getLast?_append_cons ..).symm
        exact ⟨before, token, after, htokens, rfl,
          firstOffending_of_malformed hback hfound hbegins hstuck⟩
  · cases Parser.parse_blames hfinish herror with
    | unknownFunction hwords hbegins hfunction => exact ⟨_, _, hwords, hbegins, hfunction⟩
  · cases Parser.parse_blames hfinish herror with
    | unknownIdentifier hwords hafter hbegins htime hconstant hfunction =>
        exact ⟨_, _, hwords, hafter, hbegins, htime, hconstant, hfunction⟩

def uncalledSine : List (Placed Token) :=
  [⟨.openParen, 0⟩, ⟨.name "t", 1⟩, ⟨.operator .add, 2⟩, ⟨.name "sin", 3⟩, ⟨.closeParen, 6⟩,
    ⟨.finish, 7⟩]

/-- In `(t+sin)` the name is reported, though only the parenthesis behind it is out of place. -/
theorem parse_blames_first_uncalled :
    tokenize "(t+sin)" = .ok uncalledSine ∧
      Parser.parse uncalledSine 9 = .error (.malformed 3 (.uncalledFunction "sin")) ∧
      ∃ before token after, uncalledSine = before ++ token :: after ∧ token.position = 3 ∧
        FirstOffending (wordsOf before) token.value (wordsOf after) := by
  have htokens : tokenize "(t+sin)" = .ok uncalledSine := by decide +kernel
  have herror : Parser.parse uncalledSine 9 = .error (.malformed 3 (.uncalledFunction "sin")) := by
    decide +kernel
  exact ⟨htokens, herror, (parse_blames_first htokens 9).1 3 _ herror⟩

end Waveform.Formula
