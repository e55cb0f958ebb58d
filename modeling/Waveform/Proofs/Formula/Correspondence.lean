import Waveform.Proofs.Formula.Reading

/-!
# Tokens at other places

The parser never looks at a place, it only reports one. So two sequences of the same tokens are
parsed to the same tree or rejected for the same reason, and the places that are reported
correspond if those of the tokens do.

A multiplication behind a number or a closing parenthesis is an exception: it may be at any place,
because it is never reported. The operand before it is complete, so the parser goes on past it.
To carry this through the rules, a sequence is loose while it stands behind a complete operand, and
every rule leaves only tokens that do not go on with what it has read. Main statement:
`parse_alike`.
-/

namespace Waveform.Formula

/-- A token that ends an operand, behind which a multiplication may be understood. -/
def Token.endsOperand : Token → Bool
  | .number _ | .closeParen => true
  | _ => false

/--
The same tokens at corresponding places. In front of a loose sequence, and behind the end of an
operand, a multiplication may be at any place.
-/
inductive Alike (corresponds : Nat → Nat → Prop) :
    Bool → List (Placed Token) → List (Placed Token) → Prop
  | nil {loose : Bool} : Alike corresponds loose [] []
  | cons {loose : Bool} {token : Token} {place place' : Nat} {rest rest' : List (Placed Token)}
      (hplace : corresponds place place') (hrest : Alike corresponds token.endsOperand rest rest') :
      Alike corresponds loose (⟨token, place⟩ :: rest) (⟨token, place'⟩ :: rest')
  | product {place place' : Nat} {rest rest' : List (Placed Token)}
      (hrest : Alike corresponds false rest rest') :
      Alike corresponds true (⟨.operator .mul, place⟩ :: rest) (⟨.operator .mul, place'⟩ :: rest')

/-- The same cause, reported at corresponding places. -/
inductive ParseError.Alike (corresponds : Nat → Nat → Prop) : ParseError → ParseError → Prop
  | malformed {place place' : Nat} (fault : SyntaxFault) (hplace : corresponds place place') :
      Alike corresponds (.malformed place fault) (.malformed place' fault)
  | unplaced {error : ParseError} (hunplaced : ∀ place fault, error ≠ .malformed place fault) :
      Alike corresponds error error

/-- Two outcomes are both results, related by `R`, or both errors of the same cause. -/
inductive BothEnd (corresponds : Nat → Nat → Prop) {α β : Type} (R : α → β → Prop) :
    Except ParseError α → Except ParseError β → Prop
  | ok {value : α} {value' : β} (h : R value value') :
      BothEnd corresponds R (.ok value) (.ok value')
  | error {error error' : ParseError} (h : error.Alike corresponds error') :
      BothEnd corresponds R (.error error) (.error error')

variable {corresponds : Nat → Nat → Prop}

namespace Alike

variable {loose : Bool} {tokens tokens' : List (Placed Token)}

theorem loosen (h : Alike corresponds loose tokens tokens') :
    Alike corresponds true tokens tokens' := by
  cases h with
  | nil => exact .nil
  | cons hplace hrest => exact .cons hplace hrest
  | product hrest => exact .product hrest

theorem tighten (h : Alike corresponds loose tokens tokens')
    (hfront : ∀ operator place rest, tokens ≠ ⟨.operator operator, place⟩ :: rest) :
    Alike corresponds false tokens tokens' := by
  cases h with
  | nil => exact .nil
  | cons hplace hrest => exact .cons hplace hrest
  | product => exact absurd rfl (hfront _ _ _)

theorem of_operator {operator : Operator} {place : Nat} {rest : List (Placed Token)}
    (h : Alike corresponds loose (⟨.operator operator, place⟩ :: rest) tokens') :
    ∃ place' rest', tokens' = ⟨.operator operator, place'⟩ :: rest' ∧
      Alike corresponds false rest rest' := by
  cases h with
  | cons hplace hrest => exact ⟨_, _, rfl, hrest⟩
  | product hrest => exact ⟨_, _, rfl, hrest⟩

theorem refl (loose : Bool) (tokens : List (Placed Token)) : Alike Eq loose tokens tokens := by
  induction tokens generalizing loose with
  | nil => exact .nil
  | cons token rest ih => exact .cons rfl (ih _)

theorem values_eq (h : Alike corresponds loose tokens tokens') :
    tokens.map (·.value) = tokens'.map (·.value) := by
  induction h with
  | nil => rfl
  | cons hplace hrest ih => rw [List.map_cons, List.map_cons, ih]
  | product hrest ih => rw [List.map_cons, List.map_cons, ih]

theorem operator_of {operator : Operator} {place' : Nat} {rest' : List (Placed Token)}
    (h : Alike corresponds loose tokens (⟨.operator operator, place'⟩ :: rest')) :
    ∃ place rest, tokens = ⟨.operator operator, place⟩ :: rest := by
  cases h with
  | cons => exact ⟨_, _, rfl⟩
  | product => exact ⟨_, _, rfl⟩

end Alike

theorem BothEnd.bind {α β α' β' : Type} {R : α → β → Prop} {S : α' → β' → Prop}
    {first : Except ParseError α} {first' : Except ParseError β}
    {next : α → Except ParseError α'} {next' : β → Except ParseError β'}
    (h : BothEnd corresponds R first first')
    (hnext : ∀ value value', R value value' → BothEnd corresponds S (next value) (next' value')) :
    BothEnd corresponds S (first >>= next) (first' >>= next') := by
  cases h with
  | ok h => exact hnext _ _ h
  | error h => exact .error h

namespace Parser

/-! ### What corresponds in two runs -/

structure Setting.Alike (corresponds : Nat → Nat → Prop) (setting setting' : Setting) : Prop where
  maxNodes_eq : setting.maxNodes = setting'.maxNodes
  endPosition : corresponds setting.endPosition setting'.endPosition

/-- Two cursors that the same rule is about to read at. -/
structure Cursor.Alike (corresponds : Nat → Nat → Prop) (start start' : Cursor) : Prop where
  rest : Formula.Alike corresponds false start.rest start'.rest
  nodes_eq : start.nodes = start'.nodes

/-- Two cursors behind the same part, in front of nothing that goes on with it. -/
structure Cursor.Left (corresponds : Nat → Nat → Prop) (category : Category)
    (cursor cursor' : Cursor) : Prop where
  rest : Formula.Alike corresponds true cursor.rest cursor'.rest
  nodes_eq : cursor.nodes = cursor'.nodes
  stops : ∀ operator place rest, cursor.rest = ⟨.operator operator, place⟩ :: rest →
    category.continuedBy operator = false

structure Step.Alike (corresponds : Nat → Nat → Prop) (category : Category) {start start' : Cursor}
    (step : Step start) (step' : Step start') : Prop where
  tree_eq : step.tree = step'.tree
  height_eq : step.height = step'.height
  next : step.next.Left corresponds category step'.next

structure Arguments.Alike (corresponds : Nat → Nat → Prop) {start start' : Cursor}
    (read : Arguments start) (read' : Arguments start') : Prop where
  trees_eq : read.trees = read'.trees
  next : read.next.Left corresponds .operand read'.next

/-- At cursors that are alike, two rules end alike. -/
def Correspond (corresponds : Nat → Nat → Prop) (category : Category) (rule rule' : Rule) : Prop :=
  ∀ ⦃start start' : Cursor⦄, start.Alike corresponds start' →
    BothEnd corresponds (Step.Alike corresponds category) (rule start) (rule' start')

theorem Correspond.run {category : Category} {rule rule' : Rule}
    (h : Correspond corresponds category rule rule') {rest rest' : List (Placed Token)}
    {nodes nodes' : Nat} (hrest : Formula.Alike corresponds false rest rest')
    (hnodes : nodes = nodes') :
    BothEnd corresponds (Step.Alike corresponds category) (rule ⟨rest, nodes⟩)
      (rule' ⟨rest', nodes'⟩) :=
  h ⟨hrest, hnodes⟩

variable {setting setting' : Setting} {group group' exponent exponent' item item' : Rule}

theorem Setting.Alike.fault (hsetting : setting.Alike corresponds setting')
    {tokens tokens' : List (Placed Token)} (h : Formula.Alike corresponds false tokens tokens')
    (fault : SyntaxFault) :
    (setting.fault tokens fault).Alike corresponds (setting'.fault tokens' fault) := by
  cases h with
  | nil => exact .malformed fault hsetting.endPosition
  | cons hplace => exact .malformed fault hplace

theorem Setting.Alike.count (hsetting : setting.Alike corresponds setting') (nodes : Nat) :
    BothEnd corresponds (· = ·) (setting.count nodes) (setting'.count nodes) := by
  rw [Setting.count, Setting.count, hsetting.maxNodes_eq]
  split
  · exact .ok rfl
  · exact .error (.unplaced (by simp))

theorem heightAbove_alike (height : Nat) :
    BothEnd corresponds (· = ·) (heightAbove height) (heightAbove height) := by
  rw [heightAbove]
  split
  · exact .ok rfl
  · exact .error (.unplaced (by simp))

theorem Cursor.Left.tighten {cursor cursor' : Cursor}
    (h : cursor.Left corresponds .sum cursor') :
    Formula.Alike corresponds false cursor.rest cursor'.rest :=
  h.rest.tighten fun operator place rest hfront =>
    Bool.noConfusion (h.stops operator place rest hfront)

/-! ### Primaries -/

theorem Cursor.Left.operand {rest rest' : List (Placed Token)} {nodes nodes' : Nat}
    {loose : Bool} (h : Formula.Alike corresponds loose rest rest') (hnodes : nodes = nodes') :
    Cursor.Left corresponds .operand ⟨rest, nodes⟩ ⟨rest', nodes'⟩ :=
  ⟨h.loosen, hnodes, fun _ _ _ _ => rfl⟩

section

variable (hsetting : setting.Alike corresponds setting')

include hsetting

theorem leaf_alike (tree : Expr) {start start' : Cursor} (hnodes : start.nodes = start'.nodes)
    {rest rest' : List (Placed Token)} (h : Formula.Alike corresponds true rest rest')
    (shorter : rest.length < start.rest.length) (shorter' : rest'.length < start'.rest.length) :
    BothEnd corresponds (Step.Alike corresponds .operand) (leaf setting tree start rest shorter)
      (leaf setting' tree start' rest' shorter') := by
  rw [leaf, leaf, hnodes]
  refine (hsetting.count _).bind fun nodes nodes' hcount => ?_
  exact .ok ⟨rfl, rfl, .operand h hcount⟩

theorem named_alike (name : String) {start start' : Cursor}
    (hstart : start.Alike corresponds start') {rest rest' : List (Placed Token)}
    (h : Formula.Alike corresponds true rest rest')
    (shorter : rest.length < start.rest.length) (shorter' : rest'.length < start'.rest.length) :
    BothEnd corresponds (Step.Alike corresponds .operand) (named setting name start rest shorter)
      (named setting' name start' rest' shorter') := by
  rw [named, named]
  split
  · exact leaf_alike hsetting _ hstart.nodes_eq h _ _
  split
  · exact leaf_alike hsetting _ hstart.nodes_eq h _ _
  split
  · exact .error (hsetting.fault hstart.rest _)
  · exact .error (.unplaced (by simp))

variable (hgroup : Correspond corresponds .sum group group')

include hgroup

theorem arguments_alike (name : String) {start start' : Cursor}
    (hstart : start.Alike corresponds start') :
    BothEnd corresponds (Arguments.Alike corresponds) (arguments setting group name start)
      (arguments setting' group' name start') := by
  fun_induction arguments setting group name start generalizing start' with
  | case1 start ih =>
    rw [arguments]
    refine (hgroup hstart).bind fun argument argument' hargument => ?_
    have hrest := hargument.next.tighten
    have hnodes := hargument.next.nodes_eq
    obtain ⟨tree, height, ⟨rest, nodes⟩, shorter⟩ := argument
    obtain ⟨tree', height', ⟨rest', nodes'⟩, shorter'⟩ := argument'
    obtain ⟨rfl, rfl, -⟩ := hargument
    cases hrest with
    | nil => exact .error (hsetting.fault .nil _)
    | @cons _ token place place' rest rest' hplace hrest =>
        cases token with
        | comma =>
            have hnext : Cursor.Alike corresponds ⟨rest, nodes⟩ ⟨rest', nodes'⟩ := ⟨hrest, hnodes⟩
            refine (ih ⟨tree, height, _, shorter⟩ place rest rfl hnext).bind
              fun others others' hothers => .ok ⟨?_, hothers.next⟩
            exact congrArg _ hothers.trees_eq
        | closeParen => exact .ok ⟨rfl, .operand hrest hnodes⟩
        | _ => exact .error (hsetting.fault (.cons hplace hrest) _)

theorem argumentList_alike (name : String) {start start' : Cursor}
    (hstart : start.Alike corresponds start') :
    BothEnd corresponds (Arguments.Alike corresponds) (argumentList setting group name start)
      (argumentList setting' group' name start') := by
  have harguments := arguments_alike hsetting hgroup name hstart
  obtain ⟨rest, nodes⟩ := start
  obtain ⟨rest', nodes'⟩ := start'
  obtain ⟨hrest, hnodes⟩ := hstart
  cases hrest with
  | nil => exact harguments
  | @cons _ token place place' rest rest' hplace hrest =>
      cases token with
      | closeParen => exact .ok ⟨rfl, .operand hrest hnodes⟩
      | _ => exact harguments

theorem call_alike (name : String) :
    Correspond corresponds .operand (call setting group name) (call setting' group' name) := by
  intro start start' hstart
  rw [call, call]
  split
  · exact .error (.unplaced (by simp))
  · refine (argumentList_alike hsetting hgroup name hstart).bind fun read read' hread => ?_
    rw [← hread.trees_eq, ← hread.next.nodes_eq]
    split
    · refine (hsetting.count _).bind fun nodes nodes' hnodes => ?_
      refine (heightAbove_alike _).bind fun above above' habove => ?_
      exact .ok ⟨rfl, habove, .operand hread.next.rest hnodes⟩
    · exact .error (.unplaced (by simp))

theorem primary_alike :
    Correspond corresponds .operand (primary setting group) (primary setting' group') := by
  intro start start' hstart
  have hfault := hsetting.fault hstart.rest
  obtain ⟨rest, nodes⟩ := start
  obtain ⟨rest', nodes'⟩ := start'
  have hrest : Formula.Alike corresponds false rest rest' := hstart.rest
  have hnodes : nodes = nodes' := hstart.nodes_eq
  cases hrest with
  | nil => exact .error (hfault _)
  | @cons _ token place place' rest rest' hplace hrest =>
      cases token with
      | number value => exact leaf_alike hsetting _ hnodes hrest.loosen _ _
      | name name =>
          cases hrest with
          | nil => exact named_alike hsetting name hstart .nil _ _
          | @cons _ second place place' rest rest' hplace hrest =>
              cases second with
              | openParen =>
                  have hcall := (call_alike hsetting hgroup name).run hrest hnodes
                  refine hcall.bind fun step step' h => ?_
                  exact .ok ⟨h.tree_eq, h.height_eq, h.next⟩
              | _ => exact named_alike hsetting name hstart (.cons hplace hrest) _ _
      | openParen =>
          refine (hgroup.run hrest hnodes).bind fun inner inner' hinner => ?_
          have hrest := hinner.next.tighten
          have hnodes := hinner.next.nodes_eq
          obtain ⟨tree, height, ⟨rest, nodes⟩, shorter⟩ := inner
          obtain ⟨tree', height', ⟨rest', nodes'⟩, shorter'⟩ := inner'
          obtain ⟨rfl, rfl, -⟩ := hinner
          cases hrest with
          | nil => exact .error (hsetting.fault .nil _)
          | @cons _ token place place' rest rest' hplace hrest =>
              cases token with
              | closeParen => exact .ok ⟨rfl, rfl, .operand hrest hnodes⟩
              | _ => exact .error (hsetting.fault (.cons hplace hrest) _)
      | _ => exact .error (hfault _)

/-! ### Operators -/

theorem operand_alike :
    Correspond corresponds .operand (operand setting group) (operand setting' group') := by
  intro start start' hstart
  have hplain := primary_alike hsetting hgroup hstart
  obtain ⟨rest, nodes⟩ := start
  obtain ⟨rest', nodes'⟩ := start'
  have hrest : Formula.Alike corresponds false rest rest' := hstart.rest
  have hnodes : nodes = nodes' := hstart.nodes_eq
  cases hrest with
  | nil => exact hplain
  | @cons _ token place place' rest rest' hplace hrest =>
      cases token with
      | operator operator =>
          cases operator with
          | sub =>
              have hprimary := (primary_alike hsetting hgroup).run hrest hnodes
              refine hprimary.bind fun inner inner' hinner => ?_
              rw [← hinner.tree_eq, ← hinner.height_eq, ← hinner.next.nodes_eq]
              split
              · exact .ok ⟨rfl, rfl, hinner.next⟩
              · refine (hsetting.count _).bind fun first first' hfirst => ?_
                rw [← hfirst]
                refine (hsetting.count _).bind fun second second' hsecond => ?_
                refine (heightAbove_alike _).bind fun above above' habove => ?_
                exact .ok ⟨rfl, habove, .operand hinner.next.rest hsecond⟩
          | _ => exact hplain
      | _ => exact hplain

theorem powerOf_alike (hexponent : Correspond corresponds .power exponent exponent') :
    Correspond corresponds .power (powerOf setting group exponent)
      (powerOf setting' group' exponent') := by
  intro start start' hstart
  refine (operand_alike hsetting hgroup hstart).bind fun base base' hbase => ?_
  have hrest := hbase.next.rest
  have hnodes := hbase.next.nodes_eq
  obtain ⟨tree, height, ⟨rest, nodes⟩, shorter⟩ := base
  obtain ⟨tree', height', ⟨rest', nodes'⟩, shorter'⟩ := base'
  obtain ⟨rfl, rfl, -⟩ := hbase
  -- Only `**` is looked for behind the base, so a product that is loose there stays where it is.
  cases hrest with
  | nil => exact .ok ⟨rfl, rfl, .nil, hnodes, by rintro _ _ _ ⟨⟩⟩
  | product hrest => exact .ok ⟨rfl, rfl, .product hrest, hnodes, by rintro _ _ _ ⟨⟩; rfl⟩
  | @cons _ token place place' rest rest' hplace hrest =>
      by_cases hpow : token = .operator .pow
      · subst hpow
        refine (hexponent.run hrest hnodes).bind fun raised raised' hraised => ?_
        rw [← hraised.tree_eq, ← hraised.height_eq, ← hraised.next.nodes_eq]
        refine (hsetting.count _).bind fun counted counted' hcounted => ?_
        refine (heightAbove_alike _).bind fun above above' habove => ?_
        exact .ok ⟨rfl, habove, hraised.next.rest, hcounted, hraised.next.stops⟩
      · cases token with
        | operator operator =>
            cases operator with
            | pow => exact absurd rfl hpow
            | _ => exact .ok ⟨rfl, rfl, .cons hplace hrest, hnodes, by rintro _ _ _ ⟨⟩; rfl⟩
        | _ => exact .ok ⟨rfl, rfl, .cons hplace hrest, hnodes, by rintro _ _ _ ⟨⟩⟩

end

/-- In front of no fitting operator, both runs are done with their level. -/
theorem joinFrom_alike_of_unfit {level : Level} {start start' : Cursor} {left : Step start}
    {left' : Step start'} (hleft : left.Alike corresponds level.operand left')
    (hunfit : ∀ operator place rest, left.next.rest = ⟨.operator operator, place⟩ :: rest →
      level.fits operator = false) :
    BothEnd corresponds (Step.Alike corresponds (.joined level)) (.ok left)
      (joinFrom setting' level.fits item' left') := by
  have hdone : joinFrom setting' level.fits item' left' = .ok left' := by
    rw [joinFrom]
    split
    · next hrest' =>
      have hboth := hleft.next.rest
      rw [hrest'] at hboth
      obtain ⟨place, rest, hrest⟩ := hboth.operator_of
      rw [if_neg (by simp [hunfit _ _ _ hrest])]
    · rfl
  rw [hdone]
  refine .ok ⟨hleft.tree_eq, hleft.height_eq, hleft.next.rest, hleft.next.nodes_eq, ?_⟩
  intro operator place rest hrest
  exact Category.continuedBy_joined (hunfit _ _ _ hrest) (hleft.next.stops _ _ _ hrest)

theorem joinFrom_alike (hsetting : setting.Alike corresponds setting') {level : Level}
    (hitem : Correspond corresponds level.operand item item') {start start' : Cursor}
    {left : Step start} {left' : Step start'} (hleft : left.Alike corresponds level.operand left') :
    BothEnd corresponds (Step.Alike corresponds (.joined level))
      (joinFrom setting level.fits item left) (joinFrom setting' level.fits item' left') := by
  fun_induction joinFrom setting level.fits item left generalizing left' with
  | case1 left operator place rest hrest hfits ih =>
      have hboth := hleft.next.rest
      rw [hrest] at hboth
      obtain ⟨place', rest', hrest', hafter⟩ := hboth.of_operator
      rw [joinFrom]
      split
      · next hnext =>
        rw [hrest'] at hnext
        cases hnext
        rw [if_pos hfits]
        refine (hitem.run hafter hleft.next.nodes_eq).bind fun right right' hright => ?_
        rw [← hright.tree_eq, ← hright.height_eq, ← hright.next.nodes_eq, ← hleft.tree_eq,
          ← hleft.height_eq]
        refine (hsetting.count _).bind fun nodes nodes' hnodes => ?_
        refine (heightAbove_alike _).bind fun above above' habove => ?_
        exact ih right nodes above ⟨rfl, habove, hright.next.rest, hnodes, hright.next.stops⟩
      · next hnone => exact absurd hrest' (hnone _ _ _)
  | case2 left operator place rest hrest hfits =>
      refine joinFrom_alike_of_unfit hleft fun operator' place' rest' hrest' => ?_
      rw [hrest] at hrest'
      cases hrest'
      simpa using hfits
  | case3 left hrest =>
      exact joinFrom_alike_of_unfit hleft fun operator place rest hrest' =>
        (hrest operator place rest hrest').elim

theorem joined_alike (hsetting : setting.Alike corresponds setting') (level : Level)
    (hitem : Correspond corresponds level.operand item item') :
    Correspond corresponds (.joined level) (joined setting level.fits item)
      (joined setting' level.fits item') := by
  intro start start' hstart
  exact (hitem hstart).bind fun left left' hleft => joinFrom_alike hsetting hitem hleft

theorem sumOf_alike (hsetting : setting.Alike corresponds setting') {power power' : Rule}
    (hpower : Correspond corresponds .power power power') :
    Correspond corresponds .sum (sumOf setting power) (sumOf setting' power') :=
  joined_alike hsetting .additive (joined_alike hsetting .multiplicative hpower)

theorem tooDeep_alike (category : Category) : Correspond corresponds category tooDeep tooDeep := by
  intro start start' _
  exact .error (.unplaced (by simp))

theorem power_alike (hsetting : setting.Alike corresponds setting') (levels : Nat) :
    Correspond corresponds .power (power setting levels) (power setting' levels) := by
  induction levels with
  | zero => exact powerOf_alike hsetting (tooDeep_alike _) (tooDeep_alike _)
  | succ levels ih => exact powerOf_alike hsetting (sumOf_alike hsetting ih) ih

/-! ### Main statement -/

theorem atEnd_of_alike {tokens tokens' : List (Placed Token)}
    (h : Formula.Alike corresponds false tokens tokens') : atEnd tokens = atEnd tokens' := by
  cases h with
  | nil => rfl
  | @cons _ token => cases token <;> rfl

/--
The same tokens at corresponding places are parsed to the same tree with the same number of nodes,
or are rejected for the same reason at corresponding places.
-/
theorem parse_alike {tokens tokens' : List (Placed Token)}
    (h : Formula.Alike corresponds false tokens tokens')
    (hend : corresponds ((tokens.getLast?.map (·.position)).getD 0)
      ((tokens'.getLast?.map (·.position)).getD 0)) (maxNodes : Nat) :
    BothEnd corresponds (· = ·) (parse tokens maxNodes) (parse tokens' maxNodes) := by
  have hsetting : Setting.Alike corresponds
      ⟨maxNodes, (tokens.getLast?.map (·.position)).getD 0⟩
      ⟨maxNodes, (tokens'.getLast?.map (·.position)).getD 0⟩ := ⟨rfl, hend⟩
  have hformula := sumOf_alike hsetting (power_alike hsetting (maxNesting - 1))
  rw [parse, parse, atEnd_of_alike h]
  split
  · exact .error (hsetting.fault h _)
  refine (hformula.run h rfl).bind fun root root' hroot => ?_
  have hrest := hroot.next.tighten
  have hnodes := hroot.next.nodes_eq
  obtain ⟨tree, height, ⟨rest, nodes⟩, shorter⟩ := root
  obtain ⟨tree', height', ⟨rest', nodes'⟩, shorter'⟩ := root'
  obtain rfl : tree = tree' := hroot.tree_eq
  obtain rfl : nodes = nodes' := hnodes
  cases hrest with
  | nil => exact .ok rfl
  | @cons _ token place place' rest rest' hplace hrest =>
      cases token with
      | finish => exact .ok rfl
      | _ => exact .error (hsetting.fault (.cons hplace hrest) _)

end Parser

end Waveform.Formula
