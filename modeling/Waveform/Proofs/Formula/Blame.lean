import Waveform.Formula.ParseError
import Waveform.Proofs.Formula.Viability

/-!
# What an error is about

An error in reading a part of a sentence is about a token. What stands before it begins the part,
and with it the scanner is stuck, whatever brackets are open around the part. An error of an inner
part is one of the part around it, because what stands before the inner part leads from one to the
other: there the outer part goes on as the inner one does. Main statements: `Blames.behind` and
`Ends.bind`.
-/

namespace Waveform.Formula

def wordsOf (tokens : List (Placed Token)) : List Token := tokens.map (·.value)

theorem wordsOf_append (left right : List (Placed Token)) :
    wordsOf (left ++ right) = wordsOf left ++ wordsOf right :=
  List.map_append

theorem head?_wordsOf_ne {tokens : List (Placed Token)} {token : Token}
    (h : ∀ place rest, tokens = ⟨token, place⟩ :: rest → False) :
    (wordsOf tokens).head? ≠ some token := by
  cases tokens with
  | nil => exact (Option.some_ne_none token).symm
  | cons first rest =>
      intro heq
      obtain rfl : first.value = token := Option.some.inj heq
      exact h first.position rest rfl

/-! ### Errors -/

/-- The scanner does not come to the end of these tokens, whatever brackets are open. -/
def Stuck (part : Part) (words : List Token) : Prop :=
  ∀ brackets, (part.front brackets).scan words = none

theorem Stuck.append {part : Part} {words : List Token} (h : Stuck part words)
    (more : List Token) : Stuck part (words ++ more) := by
  intro brackets
  rw [Outlook.scan_append, h brackets, Option.bind_none]

theorem Stuck.not_viable {words : List Token} (h : Stuck .sentence words) : ¬Viable words :=
  not_viable_of_stuck (h [])

/-- The name of a function with no parenthesis behind it. -/
def Uncalled (token : Token) (after : List Token) : Prop :=
  (∃ function : Elementary, token = .name function.name) ∧ after.head? ≠ some .openParen

/--
The token that an error of a part is about, and why it is an error. A syntax error is found at the
token itself, or at the one behind it if the token is the name of a function.
-/
inductive Blames (part : Part) (tokens : List (Placed Token)) : ParseError → Prop
  | malformed {before after : List (Placed Token)} {token : Placed Token} {found : List Token}
      (fault : SyntaxFault) (htokens : tokens = before ++ token :: after)
      (hfound : found = [] ∨
        Uncalled token.value (wordsOf after) ∧ found = (wordsOf after).take 1)
      (hbegins : Begins part (wordsOf before))
      (hstuck : Stuck part (wordsOf before ++ token.value :: found)) :
      Blames part tokens (.malformed token.position fault)
  | unknownFunction {before after : List Token} {name : String}
      (hwords : wordsOf tokens = before ++ .name name :: .openParen :: after)
      (hbegins : Begins part before) (hfunction : Elementary.ofName? name = none) :
      Blames part tokens (.unknownFunction name)
  | unknownIdentifier {before after : List Token} {name : String}
      (hwords : wordsOf tokens = before ++ .name name :: after)
      (hafter : after.head? ≠ some .openParen) (hbegins : Begins part before)
      (htime : name ≠ timeName) (hconstant : Constant.ofName? name = none)
      (hfunction : Elementary.ofName? name = none) :
      Blames part tokens (.unknownIdentifier name)
  | arityMismatch (name : String) (expected found : Nat) :
      Blames part tokens (.arityMismatch name expected found)
  | tooComplex (limit : Nat) : Blames part tokens (.tooComplex limit)

theorem Blames.offending {part : Part} {tokens before after : List (Placed Token)}
    {token : Placed Token} (fault : SyntaxFault) (htokens : tokens = before ++ token :: after)
    (hbegins : Begins part (wordsOf before))
    (hstuck : ∀ brackets, ∃ next, (part.front brackets).scan (wordsOf before) = some next ∧
      next.advance token.value = none) :
    Blames part tokens (.malformed token.position fault) := by
  apply Blames.malformed fault htokens (.inl rfl) hbegins
  intro brackets
  obtain ⟨next, hscan, hnone⟩ := hstuck brackets
  rw [Outlook.scan_behind hscan, Outlook.scan_cons, hnone, Option.bind_none]

/-- Behind `lead`, a part goes on with the tokens ahead as an inner part does. -/
structure Leads (lead : List Token) (part inner : Part) (ahead : List Token) : Prop where
  begins : ∀ words, Phrase inner words → Begins part (lead ++ words)
  stuck : ∀ words, words ≠ [] → words <+: ahead → Stuck inner words → Stuck part (lead ++ words)

variable {part inner : Part} {lead ahead : List Token}

theorem Leads.of_first (hbegins : ∀ words, Phrase inner words → Begins part (lead ++ words))
    (hscan : ∀ brackets, ∃ brackets', ∀ first ∈ ahead.head?, ∀ rest,
      (part.front brackets).scan (lead ++ first :: rest) =
        (inner.front brackets').scan (first :: rest)) :
    Leads lead part inner ahead := by
  refine ⟨hbegins, fun words hne hahead hstuck brackets => ?_⟩
  obtain ⟨brackets', hscan⟩ := hscan brackets
  cases words with
  | nil => exact absurd rfl hne
  | cons first rest =>
      obtain ⟨after, rfl⟩ := hahead
      exact (hscan first rfl rest).trans (hstuck brackets')

/-- The scanner comes from the front of a part to the front of an inner part. -/
theorem Leads.of_scan (hbegins : ∀ words, Phrase inner words → Begins part (lead ++ words))
    (hscan : ∀ brackets, ∃ brackets',
      (part.front brackets).scan lead = some (inner.front brackets')) :
    Leads lead part inner ahead :=
  .of_first hbegins fun brackets =>
    (hscan brackets).imp fun _ hlead _ _ _ => Outlook.scan_behind hlead _

theorem Leads.begins_append (h : Leads lead part inner ahead) {words : List Token}
    (hbegins : Begins inner words) : Begins part (lead ++ words) := by
  obtain ⟨more, hphrase⟩ := hbegins
  obtain ⟨others, hwhole⟩ := h.begins _ hphrase
  exact ⟨more ++ others, by simpa using hwhole⟩

/-- An error of an inner part is one of the part around it, about the same token. -/
theorem Blames.behind {tokens : List (Placed Token)} {error : ParseError}
    (h : Blames inner tokens error) (before : List (Placed Token))
    (hleads : Leads (wordsOf before) part inner (wordsOf tokens)) :
    Blames part (before ++ tokens) error := by
  cases h with
  | @malformed read after token found fault htokens hfound hbegins hstuck =>
      have hprefix : found <+: wordsOf after := by
        rcases hfound with rfl | ⟨-, rfl⟩
        · exact List.nil_prefix
        · exact List.take_prefix 1 _
      have hahead : wordsOf read ++ token.value :: found <+: wordsOf tokens := by
        rw [htokens, wordsOf_append]
        exact (List.prefix_append_right_inj _).mpr (List.cons_prefix_cons.mpr ⟨rfl, hprefix⟩)
      refine .malformed fault (by rw [htokens, List.append_assoc]) hfound ?_ ?_
      · rw [wordsOf_append]
        exact hleads.begins_append hbegins
      · rw [wordsOf_append, List.append_assoc]
        exact hleads.stuck _ (by simp) hahead hstuck
  | @unknownFunction read after name hwords hbegins hfunction =>
      have hwhole : wordsOf (before ++ tokens) =
          (wordsOf before ++ read) ++ .name name :: .openParen :: after := by
        rw [wordsOf_append, hwords, List.append_assoc]
      exact .unknownFunction hwhole (hleads.begins_append hbegins) hfunction
  | @unknownIdentifier read after name hwords hafter hbegins htime hconstant hfunction =>
      have hwhole : wordsOf (before ++ tokens) =
          (wordsOf before ++ read) ++ .name name :: after := by
        rw [wordsOf_append, hwords, List.append_assoc]
      exact .unknownIdentifier hwhole hafter (hleads.begins_append hbegins) htime hconstant
        hfunction
  | arityMismatch name expected found => exact .arityMismatch name expected found
  | tooComplex limit => exact .tooComplex limit

/-! ### Outcomes -/

/-- A rule ends behind a phrase of its part, or with an error of its part. -/
inductive Ends (part : Part) (tokens : List (Placed Token)) {α : Type}
    (rest : α → List (Placed Token)) : Except ParseError α → Prop
  | ok {value : α} (read : List (Placed Token)) (htokens : tokens = read ++ rest value)
      (hphrase : Phrase part (wordsOf read)) : Ends part tokens rest (.ok value)
  | error {error : ParseError} (h : Blames part tokens error) : Ends part tokens rest (.error error)

namespace Ends

variable {α β : Type} {whole tokens : List (Placed Token)} {rest : α → List (Placed Token)}
  {rest' : β → List (Placed Token)}

theorem bind (before : List (Placed Token)) {first : Except ParseError α}
    {next : α → Except ParseError β} (h : Ends inner tokens rest first)
    (hwhole : whole = before ++ tokens)
    (hleads : Leads (wordsOf before) part inner (wordsOf tokens))
    (hnext : ∀ value read, first = .ok value → tokens = read ++ rest value →
      Phrase inner (wordsOf read) → Ends part whole rest' (next value)) :
    Ends part whole rest' (first >>= next) := by
  cases h with
  | ok read htokens hphrase => exact hnext _ read rfl htokens hphrase
  | error h =>
      rw [hwhole]
      exact .error (h.behind before hleads)

theorem ok_append {value : β} (before : List (Placed Token)) {read : List (Placed Token)}
    (hwhole : whole = before ++ tokens) (htokens : tokens = read ++ rest' value)
    (hphrase : Phrase part (wordsOf before ++ wordsOf read)) :
    Ends part whole rest' (.ok value) := by
  refine .ok (before ++ read) ?_ (by rwa [wordsOf_append])
  rw [hwhole, htokens, List.append_assoc]

theorem lift {first : Except ParseError α} (h : Ends inner tokens rest first)
    (hleads : Leads [] part inner (wordsOf tokens))
    (hphrase : ∀ words, Phrase inner words → Phrase part words) :
    Ends part tokens rest first := by
  cases h with
  | ok read htokens h => exact .ok read htokens (hphrase _ h)
  | error h => exact .error (h.behind [] hleads)

theorem map {first : Except ParseError α} (h : Ends part tokens rest first) (f : α → β)
    (hrest : ∀ value, rest' (f value) = rest value) :
    Ends part tokens rest' (first >>= fun value => pure (f value)) := by
  cases h with
  | @ok value read htokens hphrase => exact .ok read ((hrest value).symm ▸ htokens) hphrase
  | error h => exact .error h

theorem limited {first : Except ParseError Nat} {next : Nat → Except ParseError β}
    (hlimited : ∀ error, first = .error error → ∃ limit, error = .tooComplex limit)
    (hnext : ∀ value, Ends part whole rest' (next value)) :
    Ends part whole rest' (first >>= next) := by
  cases first with
  | ok value => exact hnext value
  | error error =>
      obtain ⟨limit, rfl⟩ := hlimited error rfl
      exact .error (.tooComplex limit)

end Ends

/-- The end of a sentence is in no part of it. -/
theorem Phrase.finish_notMem {words : List Token} (h : Phrase part words)
    (hpart : part ≠ .sentence) : Token.finish ∉ words := by
  induction h with
  | sentence => exact absurd rfl hpart
  | _ => simp_all

theorem finish_mem_of_read {tokens read after : List (Placed Token)}
    (hfinish : .finish ∈ wordsOf tokens) (htokens : tokens = read ++ after)
    (hphrase : Phrase part (wordsOf read)) (hpart : part ≠ .sentence) :
    .finish ∈ wordsOf after := by
  rw [htokens, wordsOf_append, List.mem_append] at hfinish
  exact hfinish.resolve_left (hphrase.finish_notMem hpart)

/-! ### From part to part -/

theorem begins_primary : Begins (.expression .primary) [] := ⟨_, .time⟩

theorem begins_sentence : Begins .sentence [] := by
  have htime : Phrase .sentence ([.name timeName] ++ [.finish]) :=
    .sentence (.sum_of_power (.single (.plain .time)))
  exact ⟨_, htime⟩

theorem leads_group (ahead : List Token) :
    Leads [.openParen] (.expression .primary) (.expression .sum) ahead := by
  refine .of_scan (fun words h => ⟨[.closeParen], .group h⟩) fun brackets => ?_
  exact ⟨.group :: brackets, rfl⟩

theorem leads_call (function : Elementary) {ahead : List Token}
    (hahead : ahead.head? ≠ some .closeParen) :
    Leads [.name function.name, .openParen] (.expression .primary) .arguments ahead := by
  refine .of_first (fun words h => ⟨[], ?_⟩) fun brackets => ⟨brackets, fun first hfirst rest => ?_⟩
  · simpa using Phrase.call function h
  · apply (Outlook.scan_behind (Outlook.scan_name function brackets) _).trans
    exact Outlook.scan_argument _ (fun heq => hahead (heq ▸ hfirst)) rest

theorem leads_argument (ahead : List Token) : Leads [] .arguments (.expression .sum) ahead := by
  refine .of_scan (fun words h => ⟨[.closeParen], .lastArgument h⟩) fun brackets => ?_
  exact ⟨.call :: brackets, rfl⟩

theorem leads_others {words : List Token} (h : Phrase (.expression .sum) words)
    (ahead : List Token) : Leads (words ++ [.comma]) .arguments .arguments ahead := by
  refine .of_scan (fun others hothers => ⟨[], ?_⟩) fun brackets => ⟨brackets, ?_⟩
  · simpa using Phrase.argument h hothers
  · exact Outlook.scan_behind (h.scan (.call :: brackets)) _

theorem leads_plain {ahead : List Token} (hahead : ahead.head? ≠ some (.operator .sub)) :
    Leads [] (.expression .operand) (.expression .primary) ahead := by
  refine .of_first (fun words h => ⟨[], ?_⟩) fun brackets => ⟨brackets, fun first hfirst rest => ?_⟩
  · simpa using Phrase.plain h
  · exact Outlook.scan_operand _ (fun heq => hahead (heq ▸ hfirst)) rest

theorem leads_negative (ahead : List Token) :
    Leads [.operator .sub] (.expression .operand) (.expression .primary) ahead := by
  refine .of_scan (fun words h => ⟨[], ?_⟩) fun brackets => ⟨brackets, rfl⟩
  simpa using Phrase.negative h

theorem leads_base (ahead : List Token) :
    Leads [] (.expression .power) (.expression .operand) ahead := by
  refine .of_scan (fun words h => ⟨[], ?_⟩) fun brackets => ⟨brackets, rfl⟩
  simpa using Phrase.single h

theorem leads_exponent {base : List Token} (h : Phrase (.expression .operand) base)
    (ahead : List Token) :
    Leads (base ++ [.operator .pow]) (.expression .power) (.expression .power) ahead := by
  refine .of_scan (fun words hwords => ⟨[], ?_⟩) fun brackets => ⟨brackets, ?_⟩
  · simpa using Phrase.raised h hwords
  · exact Outlook.scan_behind (h.scan brackets) _

theorem leads_first (level : Level) (ahead : List Token) :
    Leads [] (.expression (.joined level)) (.expression level.operand) ahead := by
  refine .of_scan (fun words h => ⟨[], ?_⟩) fun brackets => ⟨brackets, ?_⟩
  · simpa using Phrase.alone level h
  · cases level <;> rfl

theorem leads_joint {level : Level} {left : List Token} {operator : Operator}
    (h : Phrase (.expression (.joined level)) left) (hfits : level.fits operator = true)
    (ahead : List Token) :
    Leads (left ++ [.operator operator]) (.expression (.joined level)) (.expression level.operand)
      ahead := by
  refine .of_scan (fun words hwords => ⟨[], ?_⟩) fun brackets => ⟨brackets, ?_⟩
  · simpa using Phrase.joined h hfits hwords
  · apply (Outlook.scan_behind (h.scan brackets) _).trans
    cases level <;> rfl

theorem leads_sentence (ahead : List Token) : Leads [] .sentence (.expression .sum) ahead := by
  refine .of_scan (fun words h => ⟨[.finish], .sentence h⟩) fun brackets => ⟨[], rfl⟩

end Waveform.Formula
