import Mathlib.Data.List.Basic
import Waveform.Proofs.Formula.Acceptance

/-!
# Raising the node limit

Two runs of the parser on the same tokens that differ in nothing but the limit of nodes go the same
way until the lower limit refuses a node. All that can come first, a malformed token or one of the
other limits, is met by both runs at the same place. So a higher limit never changes a result, but
for the refusal by the lower one; and from the size of a program on every limit accepts it, while
below that size every limit is itself the cause of the refusal. Main statement:
`compileWith_raised`.
-/

namespace Waveform.Formula

namespace Parser

/-! ### Two results -/

/-- The results of two runs: the same, unless the lower limit of nodes has refused the first one. -/
inductive Raised (lower : Nat) {α : Type} :
    Except ParseError α → Except ParseError α → Prop
  | same (result : Except ParseError α) : Raised lower result result
  | refused (result : Except ParseError α) : Raised lower (.error (.tooComplex lower)) result

namespace Raised

variable {lower : Nat} {α β : Type}

theorem bind {first first' : Except ParseError α} {next next' : α → Except ParseError β}
    (h : Raised lower first first') (hnext : ∀ value, Raised lower (next value) (next' value)) :
    Raised lower (first >>= next) (first' >>= next') := by
  cases h with
  | same =>
    cases first with
    | error error => exact .same _
    | ok value => exact hnext value
  | refused => exact .refused _

theorem eq_of_ne {result result' : Except ParseError α} (h : Raised lower result result')
    (hne : result ≠ .error (.tooComplex lower)) : result' = result := by
  cases h with
  | same => rfl
  | refused => exact absurd rfl hne

/-- A run that succeeds under the higher limit is either the same under the lower one or refused. -/
theorem eq_ok_or {result : Except ParseError α} {value : α} (h : Raised lower result (.ok value)) :
    result = .ok value ∨ result = .error (.tooComplex lower) := by
  cases h with
  | same => exact .inl rfl
  | refused => exact .inr rfl

end Raised

/-! ### Primaries -/

variable {lower upper : Nat} (hle : lower ≤ upper) (place : Nat) {group group' : Rule}

/-- A rule under the lower limit goes the way of a rule under the higher one. -/
def Rule.Raised (lower : Nat) (rule rule' : Rule) : Prop :=
  ∀ start, Parser.Raised lower (rule start) (rule' start)

include hle

theorem count_raised (nodes : Nat) :
    Raised lower (Setting.count ⟨lower, place⟩ nodes) (Setting.count ⟨upper, place⟩ nodes) := by
  rw [Setting.count, Setting.count]
  split
  · next hlt =>
    have hlt' : nodes < upper := Nat.lt_of_lt_of_le hlt hle
    rw [if_pos hlt']
    exact .same _
  · exact .refused _

theorem leaf_raised (tree : Expr) (start : Cursor) {rest : List (Placed Token)}
    (shorter : rest.length < start.rest.length) :
    Raised lower (leaf ⟨lower, place⟩ tree start rest shorter)
      (leaf ⟨upper, place⟩ tree start rest shorter) :=
  (count_raised hle place start.nodes).bind fun _ => .same _

theorem named_raised (name : String) (start : Cursor) {rest : List (Placed Token)}
    (shorter : rest.length < start.rest.length) :
    Raised lower (named ⟨lower, place⟩ name start rest shorter)
      (named ⟨upper, place⟩ name start rest shorter) := by
  rw [named, named]
  split
  · exact leaf_raised hle place _ start shorter
  split
  · exact leaf_raised hle place _ start shorter
  split <;> exact .same _

omit hle in
theorem arguments_raised (hgroup : group.Raised lower group') (name : String) (start : Cursor) :
    Raised lower (arguments ⟨lower, place⟩ group name start)
      (arguments ⟨upper, place⟩ group' name start) := by
  fun_induction arguments ⟨lower, place⟩ group name start with
  | case1 start ih =>
    rw [arguments]
    refine (hgroup start).bind fun argument => ?_
    obtain ⟨tree, height, ⟨rest, nodes⟩, shorter⟩ := argument
    cases rest with
    | nil => exact .same _
    | cons token rest =>
        obtain ⟨token, position⟩ := token
        cases token with
        | comma =>
            exact (ih ⟨tree, height, _, shorter⟩ position rest rfl).bind fun _ => .same _
        | _ => exact .same _

theorem call_raised (hgroup : group.Raised lower group') (name : String) :
    Rule.Raised lower (call ⟨lower, place⟩ group name) (call ⟨upper, place⟩ group' name) := by
  intro start
  have hlist : Raised lower (argumentList ⟨lower, place⟩ group name start)
      (argumentList ⟨upper, place⟩ group' name start) := by
    rw [argumentList, argumentList]
    split
    · exact .same _
    · exact arguments_raised place hgroup name start
  rw [call, call]
  split
  · exact .same _
  refine hlist.bind fun read => ?_
  split
  · refine (count_raised hle place _).bind fun nodes => ?_
    exact .same _
  · exact .same _

theorem primary_raised (hgroup : group.Raised lower group') :
    Rule.Raised lower (primary ⟨lower, place⟩ group) (primary ⟨upper, place⟩ group') := by
  intro start
  obtain ⟨rest, nodes⟩ := start
  cases rest with
  | nil => exact .same _
  | cons token rest =>
      obtain ⟨token, position⟩ := token
      cases token with
      | number value => exact leaf_raised hle place _ _ _
      | name name =>
          cases rest with
          | nil => exact named_raised hle place name _ _
          | cons second rest =>
              obtain ⟨second, position'⟩ := second
              cases second with
              | openParen =>
                  exact (call_raised hle place hgroup name ⟨rest, nodes⟩).bind fun _ => .same _
              | _ => exact named_raised hle place name _ _
      | openParen =>
          refine (hgroup ⟨rest, nodes⟩).bind fun inner => ?_
          obtain ⟨tree, height, ⟨rest, nodes⟩, shorter⟩ := inner
          cases rest with
          | nil => exact .same _
          | cons token rest =>
              obtain ⟨token, position⟩ := token
              cases token with
              | _ => exact .same _
      | _ => exact .same _

/-! ### Operators -/

theorem operand_raised (hgroup : group.Raised lower group') :
    Rule.Raised lower (operand ⟨lower, place⟩ group) (operand ⟨upper, place⟩ group') := by
  have hprimary := primary_raised hle place hgroup
  intro start
  rw [operand, operand]
  split
  · next rest hrest =>
    refine (hprimary ⟨rest, start.nodes⟩).bind fun inner => ?_
    dsimp only
    split
    · exact .same _
    · refine (count_raised hle place _).bind fun first => ?_
      refine (count_raised hle place _).bind fun second => ?_
      exact .same _
  · exact hprimary start

theorem powerOf_raised {exponent exponent' : Rule} (hgroup : group.Raised lower group')
    (hexponent : exponent.Raised lower exponent') :
    Rule.Raised lower (powerOf ⟨lower, place⟩ group exponent)
      (powerOf ⟨upper, place⟩ group' exponent') := by
  intro start
  refine (operand_raised hle place hgroup start).bind fun base => ?_
  split
  · next rest hrest =>
    refine (hexponent ⟨rest, base.next.nodes⟩).bind fun raised => ?_
    refine (count_raised hle place _).bind fun nodes => ?_
    exact .same _
  · exact .same _

theorem joinFrom_raised (fits : Operator → Bool) {item item' : Rule}
    (hitem : item.Raised lower item') {start : Cursor} (left : Step start) :
    Raised lower (joinFrom ⟨lower, place⟩ fits item left)
      (joinFrom ⟨upper, place⟩ fits item' left) := by
  fun_induction joinFrom ⟨lower, place⟩ fits item left with
  | case1 left operator position rest hrest hfits ih =>
    rw [joinFrom]
    split
    · next hnext =>
      rw [hrest] at hnext
      cases hnext
      rw [if_pos hfits]
      refine (hitem ⟨rest, left.next.nodes⟩).bind fun right => ?_
      refine (count_raised hle place _).bind fun nodes => ?_
      refine (Raised.same (heightAbove _)).bind fun above => ?_
      exact ih right nodes above
    · next hnone => exact absurd hrest (hnone _ _ _)
  | case2 left operator position rest hrest hfits =>
    rw [joinFrom]
    split
    · next hnext =>
      rw [hrest] at hnext
      cases hnext
      rw [if_neg hfits]
      exact .same _
    · exact .same _
  | case3 left hrest =>
    rw [joinFrom]
    split
    · next hnext => exact (hrest _ _ _ hnext).elim
    · exact .same _

theorem joined_raised (fits : Operator → Bool) {item item' : Rule}
    (hitem : item.Raised lower item') :
    Rule.Raised lower (joined ⟨lower, place⟩ fits item) (joined ⟨upper, place⟩ fits item') :=
  fun start => (hitem start).bind fun left => joinFrom_raised hle place fits hitem left

theorem sumOf_raised {power power' : Rule} (hpower : power.Raised lower power') :
    Rule.Raised lower (sumOf ⟨lower, place⟩ power) (sumOf ⟨upper, place⟩ power') :=
  joined_raised hle place _ (joined_raised hle place _ hpower)

theorem power_raised (levels : Nat) :
    Rule.Raised lower (power ⟨lower, place⟩ levels) (power ⟨upper, place⟩ levels) := by
  have htooDeep : tooDeep.Raised lower tooDeep := fun _ => .same _
  induction levels with
  | zero => exact powerOf_raised hle place htooDeep htooDeep
  | succ levels ih => exact powerOf_raised hle place (sumOf_raised hle place ih) ih

/-! ### Whole formulas -/

theorem parse_raised (tokens : List (Placed Token)) :
    Raised lower (parse tokens lower) (parse tokens upper) := by
  rw [parse, parse]
  split
  · exact .same _
  refine (sumOf_raised hle _ (power_raised hle _ _) ⟨tokens, 0⟩).bind fun root => ?_
  exact .same _

omit hle in
theorem parse_of_size_le {tokens : List (Placed Token)} {root : Expr} {nodes maxNodes : Nat}
    (hparse : parse tokens upper = .ok (root, nodes)) (hnodes : nodes ≤ maxNodes) :
    parse tokens maxNodes = .ok (root, nodes) := by
  obtain ⟨⟨nesting, hderives, hnesting⟩, hheight, rfl, -⟩ := parse_reads hparse
  obtain hread | ⟨limit, -, hexceeds⟩ := parse_of_derives maxNodes hderives
  · exact hread
  · unfold Exceeds at hexceeds
    omega

omit hle in
theorem parse_of_size_gt {tokens : List (Placed Token)} {root : Expr} {nodes maxNodes : Nat}
    (hparse : parse tokens upper = .ok (root, nodes)) (hnodes : maxNodes < nodes) :
    parse tokens maxNodes = .error (.tooComplex maxNodes) := by
  have hupper : nodes ≤ upper := (parse_reads hparse).2.2.2
  have hraised := parse_raised (Nat.le_of_lt (Nat.lt_of_lt_of_le hnodes hupper)) tokens
  rw [hparse] at hraised
  obtain hsame | hrefused := hraised.eq_ok_or
  · exact absurd (parse_reads hsame).2.2.2 (Nat.not_le.mpr hnodes)
  · exact hrefused

end Parser

/-! ### Main statement -/

/--
Raising the limit of nodes removes refusals by that limit and changes nothing else. A result other
than the refusal by the lower limit, program or error, stays as it is under a higher one. And what
compiles under some limit compiles to the same program under exactly those limits that its number
of nodes allows; every other limit refuses it by name.
-/
theorem compileWith_raised (text : String) :
    (∀ lower upper, lower ≤ upper →
      compileWith text lower ≠ .error (.rejected (.tooComplex lower)) →
      compileWith text upper = compileWith text lower) ∧
    ∀ largest program, compileWith text largest = .ok program → ∀ maxNodes,
      compileWith text maxNodes = if program.nodeCount ≤ maxNodes then .ok program
        else .error (.rejected (.tooComplex maxNodes)) := by
  constructor
  · intro lower upper hle hne
    cases htokens : tokenize text with
    | error fault => rw [compileWith, compileWith, htokens]
    | ok tokens =>
        rw [compileWith_of_tokenize htokens] at hne
        rw [compileWith_of_tokenize htokens, compileWith_of_tokenize htokens]
        have hraised : Parser.Raised lower (Program.ofTokens text tokens lower)
            (Program.ofTokens text tokens upper) :=
          (Parser.parse_raised hle tokens).bind fun _ => .same _
        rw [hraised.eq_of_ne fun hrefused => hne (by rw [hrefused]; rfl)]
  · intro largest program hprogram maxNodes
    obtain ⟨tokens, htokens, hread⟩ := compileWith_eq_ok.mp hprogram
    obtain ⟨hparse, hsource⟩ := Program.ofTokens_eq_ok.mp hread
    rw [compileWith_of_tokenize htokens]
    split
    · next hfits =>
      rw [Program.ofTokens_eq_ok.mpr ⟨Parser.parse_of_size_le hparse hfits, hsource⟩]
      rfl
    · next hlarge =>
      have hrefused := Parser.parse_of_size_gt hparse (Nat.not_le.mp hlarge)
      rw [Program.ofTokens_eq_error.mpr hrefused]
      rfl

/-- `2**-t` has five nodes, so four are refused, and `2**` is malformed under every limit. -/
theorem compileWith_raised_minusPower :
    compileWith "2**" 1 = .error (.rejected (.malformed 3 .unexpectedEnd)) ∧
      compileWith "2**" 9 = .error (.rejected (.malformed 3 .unexpectedEnd)) ∧
      ∃ program, compileWith "2**-t" 5 = .ok program ∧ program.nodeCount = 5 ∧
        compileWith "2**-t" 9 = .ok program ∧
        compileWith "2**-t" 4 = .error (.rejected (.tooComplex 4)) := by
  have hmalformed : compileWith "2**" 1 = .error (.rejected (.malformed 3 .unexpectedEnd)) := by
    decide +kernel
  have hprogram : compileWith "2**-t" 5 = .ok ⟨"2**-t",
      .binary .pow (.literal 2) (.binary .mul (.literal (-1)) .time), 5⟩ := by decide +kernel
  have hraised := (compileWith_raised "2**").1 1 9 (by decide) (by rw [hmalformed]; simp)
  have hlimits := (compileWith_raised "2**-t").2 5 _ hprogram
  exact ⟨hmalformed, hraised.trans hmalformed, _, hprogram, rfl, hlimits 9, hlimits 4⟩

end Waveform.Formula
