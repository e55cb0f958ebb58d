import Waveform.Formula.Expr
import Waveform.Formula.Token

/-!
# The grammar of formulas

The grammar as derivations, apart from any parser: which tokens spell which tree, and how deeply
the tokens are nested.

```
sum      := product (("+" | "-") product)*
product  := power (("*" | "/") power)*
power    := operand ("**" power)?
operand  := "-"? primary
primary  := NUMBER | "t" | CONSTANT | FUNCTION "(" sum ")" | "(" sum ")"
```

Main statement: `Derives.unique`, a sequence of tokens has at most one derivation, so at most one
tree and one nesting. It is proved in front of arbitrary further tokens, because that is how an
inner part meets the tokens of the part around it; all that is asked of the further tokens is that
the part could not have gone on with them.
-/

namespace Waveform.Formula

/-- The two levels of operators that join their operands from the left. -/
inductive Level where
  | additive
  | multiplicative

inductive Category where
  | joined (level : Level)
  | power
  | operand
  | primary

/-- Products joined by `+` and `-`: a whole formula, an argument, or what stands in parentheses. -/
abbrev Category.sum : Category := .joined .additive

/-- Powers joined by `*` and `/`. -/
abbrev Category.product : Category := .joined .multiplicative

namespace Level

def fits : Level → Operator → Bool
  | additive => Operator.isAdditive
  | multiplicative => Operator.isMultiplicative

def operand : Level → Category
  | additive => .product
  | multiplicative => .power

end Level

/-- An operator together with the operand on its right. -/
structure Joint where
  operator : Operator
  tokens : List Token
  tree : Expr
  nesting : Nat

namespace Joint

def spelling (joint : Joint) : List Token := .operator joint.operator :: joint.tokens

def join (left : Expr) (joint : Joint) : Expr := .binary joint.operator left joint.tree

end Joint

/--
`Derives category tokens tree nesting` says that the tokens spell a part of a formula whose tree is
`tree`. The nesting of a token is one, and one more for each group, argument and exponent around
it; `nesting` is the greatest nesting of a token.
-/
inductive Derives : Category → List Token → Expr → Nat → Prop where
  | joined {level : Level} {first : List Token} {left : Expr} {nesting : Nat}
      (joints : List Joint) (hfirst : Derives level.operand first left nesting)
      (hfits : ∀ joint ∈ joints, level.fits joint.operator = true)
      (hjoints : ∀ joint ∈ joints,
        Derives level.operand joint.tokens joint.tree joint.nesting) :
      Derives (.joined level) (first ++ joints.flatMap Joint.spelling)
        (joints.foldl Joint.join left) (joints.foldl (fun n joint => max n joint.nesting) nesting)
  | single {tokens : List Token} {tree : Expr} {nesting : Nat}
      (hoperand : Derives .operand tokens tree nesting) : Derives .power tokens tree nesting
  | raised {base exponent : List Token} {left right : Expr} {m n : Nat}
      (hbase : Derives .operand base left m) (hexponent : Derives .power exponent right n) :
      Derives .power (base ++ .operator .pow :: exponent) (.binary .pow left right) (max m (n + 1))
  | plain {tokens : List Token} {tree : Expr} {nesting : Nat}
      (hprimary : Derives .primary tokens tree nesting) : Derives .operand tokens tree nesting
  | negativeLiteral {tokens : List Token} {value : Float} {nesting : Nat}
      (hprimary : Derives .primary tokens (.literal value) nesting) :
      Derives .operand (.operator .sub :: tokens) (.literal (-value)) nesting
  | negative {tokens : List Token} {tree : Expr} {nesting : Nat}
      (hprimary : Derives .primary tokens tree nesting) (hother : ∀ value, tree ≠ .literal value) :
      Derives .operand (.operator .sub :: tokens) (.binary .mul (.literal (-1)) tree) nesting
  | number (value : Float) : Derives .primary [.number value] (.literal value) 1
  | time : Derives .primary [.name timeName] .time 1
  | constant (constant : Constant) :
      Derives .primary [.name constant.name] (.literal constant.value) 1
  | call (function : Elementary) {argument : List Token} {tree : Expr} {nesting : Nat}
      (hargument : Derives .sum argument tree nesting) :
      Derives .primary (.name function.name :: .openParen :: (argument ++ [.closeParen]))
        (.call function tree) (nesting + 1)
  | group {inner : List Token} {tree : Expr} {nesting : Nat}
      (hinner : Derives .sum inner tree nesting) :
      Derives .primary (.openParen :: (inner ++ [.closeParen])) tree (nesting + 1)

/-- The tokens of a formula: those before the first end. -/
def formulaTokens (tokens : List (Placed Token)) : List Token :=
  (tokens.map (·.value)).takeWhile (· ≠ .finish)

/-! ### Parts with a single operand -/

theorem Derives.alone (level : Level) {tokens : List Token} {tree : Expr} {nesting : Nat}
    (h : Derives level.operand tokens tree nesting) :
    Derives (.joined level) tokens tree nesting := by
  have hjoined : Derives (.joined level) (tokens ++ [].flatMap Joint.spelling) tree nesting :=
    .joined [] h (by simp) (by simp)
  rwa [List.flatMap_nil, List.append_nil] at hjoined

theorem Derives.sum_of_power {tokens : List Token} {tree : Expr} {nesting : Nat}
    (h : Derives .power tokens tree nesting) : Derives .sum tokens tree nesting :=
  .alone .additive (.alone .multiplicative h)

/-! ### Minus signs -/

theorem Derives.negated {tokens : List Token} {tree : Expr} {nesting : Nat}
    (h : Derives .primary tokens tree nesting) :
    Derives .operand (.operator .sub :: tokens) tree.negated nesting := by
  cases tree with
  | literal value => exact .negativeLiteral h
  | time | call | binary => exact .negative h (by simp)

theorem Derives.operand_cases {tokens : List Token} {tree : Expr} {nesting : Nat}
    (h : Derives .operand tokens tree nesting) :
    Derives .primary tokens tree nesting ∨ ∃ inner positive,
      Derives .primary inner positive nesting ∧ tokens = .operator .sub :: inner ∧
        tree = positive.negated := by
  cases h with
  | plain hprimary => exact .inl hprimary
  | negativeLiteral hprimary => exact .inr ⟨_, _, hprimary, rfl, rfl⟩
  | negative hprimary hother =>
    exact .inr ⟨_, _, hprimary, rfl, (Expr.negated_of_ne_literal hother).symm⟩

/-! ### Tokens of a derivation -/

theorem Derives.tokens_ne_nil {category : Category} {tokens : List Token} {tree : Expr}
    {nesting : Nat} (h : Derives category tokens tree nesting) : tokens ≠ [] := by
  induction h with
  | joined joints hfirst hfits hjoints ih ihs => simp [ih]
  | single hoperand ih => exact ih
  | plain hprimary ih => exact ih
  | _ => simp

theorem Derives.nesting_pos {category : Category} {tokens : List Token} {tree : Expr}
    {nesting : Nat} (h : Derives category tokens tree nesting) : 0 < nesting := by
  induction h with
  | @joined level first left nesting joints hfirst hfits hjoints ih ihs =>
    clear hfirst hfits hjoints ihs
    induction joints generalizing nesting with
    | nil => exact ih
    | cons joint joints ihj => exact ihj (Nat.lt_of_lt_of_le ih (Nat.le_max_left _ _))
  | single hoperand ih => exact ih
  | raised hbase hexponent ih => omega
  | plain hprimary ih => exact ih
  | negativeLiteral hprimary ih => exact ih
  | negative hprimary hother ih => exact ih
  | _ => omega

theorem Derives.finish_notMem {category : Category} {tokens : List Token} {tree : Expr}
    {nesting : Nat} (h : Derives category tokens tree nesting) : Token.finish ∉ tokens := by
  induction h with
  | joined joints hfirst hfits hjoints ih ihs =>
    rw [List.mem_append, List.mem_flatMap, not_or]
    refine ⟨ih, ?_⟩
    rintro ⟨joint, hjoint, hmem⟩
    exact ihs joint hjoint (by simpa [Joint.spelling] using hmem)
  | _ => simp_all

theorem Derives.primary_ne_operator {tokens after rest : List Token} {tree : Expr} {nesting : Nat}
    {operator : Operator} (h : Derives .primary tokens tree nesting) :
    tokens ++ after ≠ .operator operator :: rest := by
  cases h <;> simp

theorem Derives.ne_closeParen {category : Category} {tokens : List Token} {tree : Expr}
    {nesting : Nat} (h : Derives category tokens tree nesting) (after rest : List Token) :
    tokens ++ after ≠ .closeParen :: rest := by
  induction h generalizing after with
  | joined joints hfirst hfits hjoints ih ihs =>
    rw [List.append_assoc]
    exact ih _
  | single hoperand ih => exact ih after
  | raised hbase hexponent ih =>
    rw [List.append_assoc]
    exact ih _
  | plain hprimary ih => exact ih after
  | _ => simp

/-! ### Where a part ends -/

namespace Category

/-- The operators after which a part would go on. -/
def continuedBy : Category → Operator → Bool
  | joined .additive, _ => true
  | joined .multiplicative, operator => !operator.isAdditive
  | power, operator => operator == .pow
  | operand, _ | primary, _ => false

/--
Whether a part is over before some tokens. An operator of the part continues it, and a parenthesis
after a name makes a call of it.
-/
def Stops (category : Category) : List Token → Prop
  | .openParen :: _ => False
  | .operator operator :: _ => category.continuedBy operator = false
  | _ => True

theorem Stops.of_continuedBy {outer inner : Category} {after : List Token} (h : outer.Stops after)
    (hle : ∀ operator, inner.continuedBy operator = true → outer.continuedBy operator = true) :
    inner.Stops after := by
  unfold Stops at h ⊢
  split
  · exact h
  · next operator _ =>
    cases hinner : inner.continuedBy operator with
    | false => rfl
    | true => exact absurd (hle operator hinner) (by simp [h])
  · trivial

theorem Stops.operand_of_joined {level : Level} {after : List Token}
    (h : (Category.joined level).Stops after) : level.operand.Stops after := by
  apply h.of_continuedBy
  intro operator
  cases level <;> cases operator <;> decide

theorem Stops.operand_of_power {after : List Token} (h : Category.power.Stops after) :
    Category.operand.Stops after :=
  h.of_continuedBy fun operator hoperator => by cases hoperator

theorem stops_of_fits {level : Level} {operator : Operator} (h : level.fits operator = true)
    (after : List Token) : level.operand.Stops (.operator operator :: after) := by
  change level.operand.continuedBy operator = false
  revert h
  cases level <;> cases operator <;> decide

theorem continuedBy_joined {level : Level} {operator : Operator}
    (hunfit : level.fits operator = false) (hoperand : level.operand.continuedBy operator = false) :
    (Category.joined level).continuedBy operator = false := by
  revert hunfit hoperand
  cases level <;> cases operator <;> decide

theorem not_stops_of_fits {level : Level} {operator : Operator} (h : level.fits operator = true)
    (after : List Token) : ¬ (Category.joined level).Stops (.operator operator :: after) := by
  change ¬ (Category.joined level).continuedBy operator = false
  revert h
  cases level <;> cases operator <;> decide

/-- What follows an operand among others of its level ends it. -/
theorem stops_spelling {level : Level} {joints : List Joint} {after : List Token}
    (hfits : ∀ joint ∈ joints, level.fits joint.operator = true)
    (hstops : (Category.joined level).Stops after) :
    level.operand.Stops (joints.flatMap Joint.spelling ++ after) := by
  cases joints with
  | nil => exact hstops.operand_of_joined
  | cons joint joints => exact stops_of_fits (hfits joint List.mem_cons_self) _

end Category

/-! ### Only one derivation -/

theorem timeName_ne_constant (constant : Constant) : timeName ≠ constant.name := by
  cases constant <;> decide

theorem Constant.name_injective {left right : Constant} (h : left.name = right.name) :
    left = right := by
  have hsome := Constant.ofName?_name left
  rw [h, Constant.ofName?_name] at hsome
  exact (Option.some.inj hsome).symm

theorem Elementary.name_injective {left right : Elementary} (h : left.name = right.name) :
    left = right := by
  have hsome := Elementary.ofName?_name left
  rw [h, Elementary.ofName?_name] at hsome
  exact (Option.some.inj hsome).symm

/-- Nothing but a derivation of `tokens` as `tree` in front of tokens that do not continue it. -/
def OnlyDerivation (category : Category) (tokens : List Token) (tree : Expr) (nesting : Nat) :
    Prop :=
  ∀ {tokens' : List Token} {tree' : Expr} {nesting' : Nat} {after after' : List Token},
    Derives category tokens' tree' nesting' → tokens ++ after = tokens' ++ after' →
    category.Stops after → category.Stops after' →
    tokens = tokens' ∧ tree = tree' ∧ nesting = nesting'

/-- Operands of one level are cut apart by their operators in only one way. -/
theorem OnlyDerivation.joints_unique {level : Level} {joints joints' : List Joint}
    {after after' : List Token}
    (honly : ∀ joint ∈ joints,
      OnlyDerivation level.operand joint.tokens joint.tree joint.nesting)
    (hfits : ∀ joint ∈ joints, level.fits joint.operator = true)
    (hfits' : ∀ joint ∈ joints', level.fits joint.operator = true)
    (hjoints' : ∀ joint ∈ joints',
      Derives level.operand joint.tokens joint.tree joint.nesting)
    (htokens : joints.flatMap Joint.spelling ++ after = joints'.flatMap Joint.spelling ++ after')
    (hstops : (Category.joined level).Stops after)
    (hstops' : (Category.joined level).Stops after') : joints = joints' := by
  induction joints generalizing joints' with
  | nil =>
    cases joints' with
    | nil => rfl
    | cons joint' joints' =>
      have hfit := hfits' joint' List.mem_cons_self
      simp only [List.flatMap_nil, List.nil_append, List.flatMap_cons, Joint.spelling,
        List.cons_append] at htokens
      exact absurd (htokens ▸ hstops) (Category.not_stops_of_fits hfit _)
  | cons joint joints ih =>
    cases joints' with
    | nil =>
      have hfit := hfits joint List.mem_cons_self
      simp only [List.flatMap_nil, List.nil_append, List.flatMap_cons, Joint.spelling,
        List.cons_append] at htokens
      exact absurd (htokens ▸ hstops') (Category.not_stops_of_fits hfit _)
    | cons joint' joints' =>
      simp only [List.flatMap_cons, Joint.spelling, List.cons_append, List.append_assoc,
        List.cons.injEq, Token.operator.injEq] at htokens
      obtain ⟨hoperator, htokens⟩ := htokens
      have hfits := fun joint hmem => hfits joint (List.mem_cons_of_mem _ hmem)
      have hrest' := fun joint hmem => hfits' joint (List.mem_cons_of_mem _ hmem)
      obtain ⟨hsame, htree, hnesting⟩ := honly joint List.mem_cons_self
        (hjoints' joint' List.mem_cons_self) htokens (Category.stops_spelling hfits hstops)
        (Category.stops_spelling hrest' hstops')
      have hjoint : joint = joint' := by
        cases joint
        cases joint'
        simp_all
      rw [hsame] at htokens
      rw [hjoint, ih (fun joint hmem => honly joint (List.mem_cons_of_mem _ hmem)) hfits hrest'
        (fun joint hmem => hjoints' joint (List.mem_cons_of_mem _ hmem))
        (List.append_cancel_left htokens)]

namespace OnlyDerivation

variable {tokens exponent : List Token} {tree left right : Expr} {nesting m n : Nat}

theorem joined {level : Level} {joints : List Joint}
    (hfirst : OnlyDerivation level.operand tokens left nesting)
    (honly : ∀ joint ∈ joints,
      OnlyDerivation level.operand joint.tokens joint.tree joint.nesting)
    (hfits : ∀ joint ∈ joints, level.fits joint.operator = true) :
    OnlyDerivation (.joined level) (tokens ++ joints.flatMap Joint.spelling)
      (joints.foldl Joint.join left)
      (joints.foldl (fun n joint => max n joint.nesting) nesting) := by
  intro tokens' tree' nesting' after after' h' htokens hstops hstops'
  cases h' with
  | @joined _ first' left' nesting' joints' hfirst' hfits' hjoints' =>
    rw [List.append_assoc, List.append_assoc] at htokens
    obtain ⟨hsame, hleft, hnesting⟩ := hfirst hfirst' htokens
      (Category.stops_spelling hfits hstops) (Category.stops_spelling hfits' hstops')
    rw [hsame] at htokens
    have hsames := joints_unique honly hfits hfits' hjoints'
      (List.append_cancel_left htokens) hstops hstops'
    rw [hsame, hleft, hnesting, hsames]
    exact ⟨rfl, rfl, rfl⟩

theorem single (hoperand : OnlyDerivation .operand tokens tree nesting) :
    OnlyDerivation .power tokens tree nesting := by
  intro tokens' tree' nesting' after after' h' htokens hstops hstops'
  cases h' with
  | single hoperand' =>
    exact hoperand hoperand' htokens hstops.operand_of_power hstops'.operand_of_power
  | raised hbase' hexponent' =>
    rw [List.append_assoc, List.cons_append] at htokens
    obtain ⟨hsame, -, -⟩ := hoperand hbase' htokens hstops.operand_of_power rfl
    rw [hsame] at htokens
    rw [List.append_cancel_left htokens] at hstops
    cases hstops

theorem raised (hbase : OnlyDerivation .operand tokens left m)
    (hexponent : OnlyDerivation .power exponent right n) :
    OnlyDerivation .power (tokens ++ .operator .pow :: exponent) (.binary .pow left right)
      (max m (n + 1)) := by
  intro tokens' tree' nesting' after after' h' htokens hstops hstops'
  cases h' with
  | single hoperand' =>
    rw [List.append_assoc, List.cons_append] at htokens
    obtain ⟨hsame, -, -⟩ := hbase hoperand' htokens rfl hstops'.operand_of_power
    rw [hsame] at htokens
    rw [← List.append_cancel_left htokens] at hstops'
    cases hstops'
  | raised hbase' hexponent' =>
    rw [List.append_assoc, List.append_assoc, List.cons_append, List.cons_append] at htokens
    obtain ⟨hsame, hleft, hm⟩ := hbase hbase' htokens rfl rfl
    rw [hsame] at htokens
    obtain ⟨hsame', hright, hn⟩ := hexponent hexponent'
      (List.cons.inj (List.append_cancel_left htokens)).2 hstops hstops'
    rw [hsame, hsame', hleft, hright, hm, hn]
    exact ⟨rfl, rfl, rfl⟩

theorem plain (hderives : Derives .primary tokens tree nesting)
    (hprimary : OnlyDerivation .primary tokens tree nesting) :
    OnlyDerivation .operand tokens tree nesting := by
  intro tokens' tree' nesting' after after' h' htokens hstops hstops'
  obtain hprimary' | ⟨inner, positive, hprimary', rfl, rfl⟩ := h'.operand_cases
  · exact hprimary hprimary' htokens hstops hstops'
  · exact absurd htokens hderives.primary_ne_operator

theorem negated (hprimary : OnlyDerivation .primary tokens tree nesting) :
    OnlyDerivation .operand (.operator .sub :: tokens) tree.negated nesting := by
  intro tokens' tree' nesting' after after' h' htokens hstops hstops'
  obtain hprimary' | ⟨inner, positive, hprimary', rfl, rfl⟩ := h'.operand_cases
  · exact absurd htokens.symm hprimary'.primary_ne_operator
  · rw [List.cons_append, List.cons_append] at htokens
    obtain ⟨hsame, htree, hnesting⟩ := hprimary hprimary' (List.cons.inj htokens).2 hstops hstops'
    rw [hsame, htree, hnesting]
    exact ⟨rfl, rfl, rfl⟩

theorem number (value : Float) : OnlyDerivation .primary [.number value] (.literal value) 1 := by
  intro tokens' tree' nesting' after after' h' htokens hstops hstops'
  cases h' <;> simp_all

theorem time : OnlyDerivation .primary [.name timeName] .time 1 := by
  intro tokens' tree' nesting' after after' h' htokens hstops hstops'
  cases h' with
  | time => exact ⟨rfl, rfl, rfl⟩
  | constant constant =>
    simp only [List.cons_append, List.cons.injEq, Token.name.injEq] at htokens
    exact absurd htokens.1 (timeName_ne_constant constant)
  | call function hargument =>
    simp only [List.cons_append, List.nil_append, List.cons.injEq] at htokens
    rw [htokens.2] at hstops
    cases hstops
  | _ => simp at htokens

theorem constant (constant : Constant) :
    OnlyDerivation .primary [.name constant.name] (.literal constant.value) 1 := by
  intro tokens' tree' nesting' after after' h' htokens hstops hstops'
  cases h' with
  | time =>
    simp only [List.cons_append, List.cons.injEq, Token.name.injEq] at htokens
    exact absurd htokens.1.symm (timeName_ne_constant constant)
  | constant constant' =>
    simp only [List.cons_append, List.cons.injEq, Token.name.injEq] at htokens
    rw [Constant.name_injective htokens.1]
    exact ⟨rfl, rfl, rfl⟩
  | call function hargument =>
    simp only [List.cons_append, List.nil_append, List.cons.injEq] at htokens
    rw [htokens.2] at hstops
    cases hstops
  | _ => simp at htokens

theorem call (function : Elementary) (hargument : OnlyDerivation .sum tokens tree nesting) :
    OnlyDerivation .primary
      (.name function.name :: .openParen :: (tokens ++ [.closeParen]))
      (.call function tree) (nesting + 1) := by
  intro tokens' tree' nesting' after after' h' htokens hstops hstops'
  cases h' with
  | time | constant =>
    simp only [List.cons_append, List.nil_append, List.cons.injEq] at htokens
    rw [← htokens.2] at hstops'
    cases hstops'
  | call function' hargument' =>
    simp only [List.cons_append, List.append_assoc, List.cons.injEq, Token.name.injEq,
      true_and] at htokens
    obtain ⟨hsame, htree, hnesting⟩ := hargument hargument' htokens.2 trivial trivial
    rw [Elementary.name_injective htokens.1, hsame, htree, hnesting]
    exact ⟨rfl, rfl, rfl⟩
  | _ => simp at htokens

theorem group (hinner : OnlyDerivation .sum tokens tree nesting) :
    OnlyDerivation .primary (.openParen :: (tokens ++ [.closeParen])) tree (nesting + 1) := by
  intro tokens' tree' nesting' after after' h' htokens hstops hstops'
  cases h' with
  | group hinner' =>
    simp only [List.cons_append, List.append_assoc, List.cons.injEq, true_and] at htokens
    obtain ⟨hsame, htree, hnesting⟩ := hinner hinner' htokens trivial trivial
    rw [hsame, htree, hnesting]
    exact ⟨rfl, rfl, rfl⟩
  | _ => simp at htokens

end OnlyDerivation

/--
A sequence of tokens has at most one derivation, whatever tokens follow that do not continue it.
-/
theorem Derives.unique {category : Category} {tokens : List Token} {tree : Expr} {nesting : Nat}
    (h : Derives category tokens tree nesting) : OnlyDerivation category tokens tree nesting := by
  induction h with
  | joined joints _ hfits _ ihfirst ihs => exact OnlyDerivation.joined ihfirst ihs hfits
  | single _ ih => exact OnlyDerivation.single ih
  | raised _ _ ihbase ihexponent => exact OnlyDerivation.raised ihbase ihexponent
  | plain hprimary ih => exact OnlyDerivation.plain hprimary ih
  | negativeLiteral _ ih => exact OnlyDerivation.negated ih
  | negative _ hother ih => exact Expr.negated_of_ne_literal hother ▸ OnlyDerivation.negated ih
  | number value => exact OnlyDerivation.number value
  | time => exact OnlyDerivation.time
  | constant constant => exact OnlyDerivation.constant constant
  | call function _ ih => exact OnlyDerivation.call function ih
  | group _ ih => exact OnlyDerivation.group ih

/-- All derivations of a sequence of tokens have one tree and one nesting. -/
theorem Derives.tree_unique {category : Category} {tokens : List Token} {tree tree' : Expr}
    {nesting nesting' : Nat} (h : Derives category tokens tree nesting)
    (h' : Derives category tokens tree' nesting') : tree = tree' ∧ nesting = nesting' := by
  have hstops : category.Stops [] := trivial
  exact (h.unique h' rfl hstops hstops).2

end Waveform.Formula
