import Waveform.Proofs.Formula.Grammar

/-!
# What formulas begin with

The grammar of formulas with calls of any number of arguments: the number is not a matter of syntax,
it is looked at when the call has been read. Otherwise the grammar is the same, without the trees.

```
sentence  := sum END
primary   := NUMBER | "t" | CONSTANT | FUNCTION "(" (arguments | ")") | "(" sum ")"
arguments := sum ("," sum)* ")"
```

Tokens are viable if a sentence begins with them. From the left, all that matters of what has been
read is what is expected next and which brackets are open. So a scanner that keeps no more reads
every sentence, and where it is stuck no sentence goes on. Main statement: `not_viable_of_stuck`.
-/

namespace Waveform.Formula

/-! ### The grammar -/

/-- What the grammar describes: the parts of an expression, the inside of a call, and the whole. -/
inductive Part where
  | expression (category : Category)
  | arguments
  | sentence

/-- `Phrase part words` says that the tokens are a part of a sentence. -/
inductive Phrase : Part → List Token → Prop
  | alone (level : Level) {words : List Token} (h : Phrase (.expression level.operand) words) :
      Phrase (.expression (.joined level)) words
  | joined {level : Level} {left right : List Token} {operator : Operator}
      (hleft : Phrase (.expression (.joined level)) left) (hfits : level.fits operator = true)
      (hright : Phrase (.expression level.operand) right) :
      Phrase (.expression (.joined level)) (left ++ .operator operator :: right)
  | single {words : List Token} (h : Phrase (.expression .operand) words) :
      Phrase (.expression .power) words
  | raised {base exponent : List Token} (hbase : Phrase (.expression .operand) base)
      (hexponent : Phrase (.expression .power) exponent) :
      Phrase (.expression .power) (base ++ .operator .pow :: exponent)
  | plain {words : List Token} (h : Phrase (.expression .primary) words) :
      Phrase (.expression .operand) words
  | negative {words : List Token} (h : Phrase (.expression .primary) words) :
      Phrase (.expression .operand) (.operator .sub :: words)
  | number (value : Float) : Phrase (.expression .primary) [.number value]
  | time : Phrase (.expression .primary) [.name timeName]
  | constant (constant : Constant) : Phrase (.expression .primary) [.name constant.name]
  | group {words : List Token} (h : Phrase (.expression .sum) words) :
      Phrase (.expression .primary) (.openParen :: (words ++ [.closeParen]))
  | emptyCall (function : Elementary) :
      Phrase (.expression .primary) [.name function.name, .openParen, .closeParen]
  | call (function : Elementary) {words : List Token} (h : Phrase .arguments words) :
      Phrase (.expression .primary) (.name function.name :: .openParen :: words)
  | lastArgument {words : List Token} (h : Phrase (.expression .sum) words) :
      Phrase .arguments (words ++ [.closeParen])
  | argument {words others : List Token} (h : Phrase (.expression .sum) words)
      (hothers : Phrase .arguments others) : Phrase .arguments (words ++ .comma :: others)
  | sentence {words : List Token} (h : Phrase (.expression .sum) words) :
      Phrase .sentence (words ++ [.finish])

/-- A part can go on after these tokens, or is complete with them. -/
def Begins (part : Part) (words : List Token) : Prop := ∃ more, Phrase part (words ++ more)

def Viable (words : List Token) : Prop := Begins .sentence words

theorem Phrase.sum_of_power {words : List Token} (h : Phrase (.expression .power) words) :
    Phrase (.expression .sum) words :=
  .alone .additive (.alone .multiplicative h)

/-! ### A scanner -/

/-- A bracket that is open: that of a group, or that of a call. -/
inductive Bracket where
  | group
  | call

/-- What can come next. Behind the bracket of a call, an operand or the end of the call can. -/
inductive Expected where
  | operand
  | primary
  | argument
  | bracket
  | operator
  | nothing

/-- What can come next, and the brackets that are open, the innermost one first. -/
structure Outlook where
  expected : Expected
  brackets : List Bracket

def expectedAfterName (name : String) : Option Expected :=
  if (Elementary.ofName? name).isSome then some .bracket
  else if name = timeName ∨ (Constant.ofName? name).isSome then some .operator
  else none

namespace Outlook

variable (brackets : List Bracket)

def beginPrimary : Token → Option Outlook
  | .number _ => some ⟨.operator, brackets⟩
  | .name name => (expectedAfterName name).map (⟨·, brackets⟩)
  | .openParen => some ⟨.operand, .group :: brackets⟩
  | _ => none

def beginOperand : Token → Option Outlook
  | .operator .sub => some ⟨.primary, brackets⟩
  | token => beginPrimary brackets token

def advance : Outlook → Token → Option Outlook
  | ⟨.operand, brackets⟩, token => beginOperand brackets token
  | ⟨.primary, brackets⟩, token => beginPrimary brackets token
  | ⟨.argument, .call :: brackets⟩, .closeParen => some ⟨.operator, brackets⟩
  | ⟨.argument, brackets⟩, token => beginOperand brackets token
  | ⟨.bracket, brackets⟩, .openParen => some ⟨.argument, .call :: brackets⟩
  | ⟨.operator, brackets⟩, .operator _ => some ⟨.operand, brackets⟩
  | ⟨.operator, _ :: brackets⟩, .closeParen => some ⟨.operator, brackets⟩
  | ⟨.operator, .call :: brackets⟩, .comma => some ⟨.operand, .call :: brackets⟩
  | ⟨.operator, []⟩, .finish => some ⟨.nothing, []⟩
  | _, _ => none

def scan (outlook : Outlook) (words : List Token) : Option Outlook := words.foldlM advance outlook

end Outlook

namespace Part

/-- The outlook at the front of a part, when some brackets are open around it. -/
def front (brackets : List Bracket) : Part → Outlook
  | .expression .primary => ⟨.primary, brackets⟩
  | .expression _ => ⟨.operand, brackets⟩
  | .arguments => ⟨.operand, .call :: brackets⟩
  | .sentence => ⟨.operand, []⟩

def back (brackets : List Bracket) : Part → Outlook
  | .sentence => ⟨.nothing, []⟩
  | _ => ⟨.operator, brackets⟩

end Part

namespace Outlook

theorem scan_append (outlook : Outlook) (left right : List Token) :
    outlook.scan (left ++ right) = (outlook.scan left).bind fun next => next.scan right :=
  List.foldlM_append

theorem scan_behind {outlook next : Outlook} {left : List Token}
    (h : outlook.scan left = some next) (right : List Token) :
    outlook.scan (left ++ right) = next.scan right := by
  rw [scan_append, h, Option.bind_some]

theorem scan_cons (outlook : Outlook) (token : Token) (rest : List Token) :
    outlook.scan (token :: rest) = (outlook.advance token).bind fun next => next.scan rest :=
  List.foldlM_cons

theorem scan_operand (brackets : List Bracket) {first : Token} (hfirst : first ≠ .operator .sub)
    (rest : List Token) :
    scan ⟨.operand, brackets⟩ (first :: rest) = scan ⟨.primary, brackets⟩ (first :: rest) := by
  have hadvance : advance ⟨.operand, brackets⟩ first = advance ⟨.primary, brackets⟩ first := by
    cases first with
    | operator operator =>
        cases operator with
        | sub => exact absurd rfl hfirst
        | _ => rfl
    | _ => rfl
  rw [scan_cons, scan_cons, hadvance]

theorem scan_argument (brackets : List Bracket) {first : Token} (hfirst : first ≠ .closeParen)
    (rest : List Token) :
    scan ⟨.argument, brackets⟩ (first :: rest) = scan ⟨.operand, brackets⟩ (first :: rest) := by
  have hadvance : advance ⟨.argument, brackets⟩ first = advance ⟨.operand, brackets⟩ first := by
    simp only [advance]
    split <;> simp_all
  rw [scan_cons, scan_cons, hadvance]

theorem scan_name (function : Elementary) (brackets : List Bracket) :
    scan ⟨.primary, brackets⟩ [.name function.name, .openParen] =
      some ⟨.argument, .call :: brackets⟩ := by
  cases function <;> rfl

theorem scan_uncalled (function : Elementary) (brackets : List Bracket) {next : Token}
    (hnext : next ≠ .openParen) : scan ⟨.primary, brackets⟩ [.name function.name, next] = none := by
  have hname : scan ⟨.primary, brackets⟩ [.name function.name] = some ⟨.bracket, brackets⟩ := by
    cases function <;> rfl
  apply (scan_behind hname [next]).trans
  cases next with
  | openParen => exact absurd rfl hnext
  | _ => rfl

end Outlook

/-! ### What the scanner reads -/

theorem Phrase.scan {part : Part} {words : List Token} (h : Phrase part words)
    (brackets : List Bracket) : (part.front brackets).scan words = some (part.back brackets) := by
  induction h generalizing brackets with
  | alone level h ih => cases level <;> exact ih brackets
  | @joined level _ _ _ hleft hfits hright ihleft ihright =>
      apply (Outlook.scan_behind (ihleft brackets) _).trans
      cases level <;> exact ihright brackets
  | single h ih => exact ih brackets
  | raised hbase hexponent ihbase ihexponent =>
      exact (Outlook.scan_behind (ihbase brackets) _).trans (ihexponent brackets)
  | @plain words h ih =>
      cases words with
      | nil => cases ih brackets
      | cons first rest =>
          refine (Outlook.scan_operand brackets ?_ rest).trans (ih brackets)
          rintro rfl
          cases ih brackets
  | negative h ih => exact ih brackets
  | number value => rfl
  | time => rfl
  | constant constant => cases constant <;> rfl
  | group h ih => exact Outlook.scan_behind (ih (.group :: brackets)) _
  | emptyCall function => cases function <;> rfl
  | @call function words h ih =>
      apply (Outlook.scan_behind (Outlook.scan_name function brackets) words).trans
      cases words with
      | nil => cases ih brackets
      | cons first rest =>
          refine (Outlook.scan_argument (.call :: brackets) ?_ rest).trans (ih brackets)
          rintro rfl
          cases ih brackets
  | lastArgument h ih => exact Outlook.scan_behind (ih (.call :: brackets)) _
  | argument h hothers ih ihothers =>
      exact (Outlook.scan_behind (ih (.call :: brackets)) _).trans (ihothers brackets)
  | sentence h ih => exact Outlook.scan_behind (ih []) _

/-- Where the scanner is stuck, no sentence goes on. -/
theorem not_viable_of_stuck {words : List Token}
    (hstuck : Outlook.scan ⟨.operand, []⟩ words = none) : ¬Viable words := by
  intro hviable
  obtain ⟨more, hphrase⟩ := hviable
  have hscan := hphrase.scan []
  rw [Outlook.scan_append, show (Part.front [] .sentence).scan words = none from hstuck] at hscan
  cases hscan

end Waveform.Formula
