import Waveform.Proofs.Formula.Counting

/-!
# The counters of a parse

The machine that parses by position agrees with the rules of the parser, at every position and at
every depth: what it reads is the same, the position stands where the rest of the tokens begins,
and the depth is that at which the rule was entered. With enough fuel it ends in no other way than
the rules do. In particular no level is closed that was not opened.

A routine is followed at one depth at a time. The levels that a rule of the parser still has are
those up to the limit, so a routine that opens a level is followed by a rule with one level less,
and the induction is on the fuel. Main statement: `bookkeeping`.
-/

namespace Waveform.Formula

/-! ### Nodes for tokens -/

theorem size_foldl_join_le {joints : List Joint} (left : Expr)
    (hjoints : ∀ joint ∈ joints, joint.tree.size ≤ 2 * joint.tokens.length) :
    (joints.foldl Joint.join left).size ≤
      left.size + 2 * (joints.flatMap Joint.spelling).length := by
  induction joints generalizing left with
  | nil => exact Nat.le_refl _
  | cons joint joints ih =>
      have hjoint := hjoints joint List.mem_cons_self
      have hrest := ih (joint.join left) fun other hmem =>
        hjoints other (List.mem_cons_of_mem _ hmem)
      rw [Joint.join, Expr.size] at hrest
      rw [List.foldl_cons, List.flatMap_cons, List.length_append, Joint.spelling, List.length_cons]
      rw [Joint.join]
      omega

/-- A minus sign makes two nodes, and no token makes more. -/
theorem Derives.size_le {category : Category} {tokens : List Token} {tree : Expr} {nesting : Nat}
    (h : Derives category tokens tree nesting) : tree.size ≤ 2 * tokens.length := by
  induction h with
  | @joined level first left nesting joints hfirst hfits hjoints ih ihs =>
      have hsize := size_foldl_join_le left ihs
      rw [List.length_append]
      omega
  | single hoperand ih => exact ih
  | raised hbase hexponent ih ih' =>
      rw [Expr.size, List.length_append, List.length_cons]
      omega
  | plain hprimary ih => exact ih
  | negativeLiteral hprimary ih =>
      rw [List.length_cons, Expr.size]
      omega
  | negative hprimary hother ih =>
      rw [List.length_cons, Expr.size, Expr.size]
      omega
  | number value => exact Nat.le_succ 1
  | time => exact Nat.le_succ 1
  | constant constant => exact Nat.le_succ 1
  | call function hargument ih =>
      rw [Expr.size, List.length_cons, List.length_cons, List.length_append]
      omega
  | group hinner ih =>
      rw [List.length_cons, List.length_append]
      omega

namespace Parser.Counting

/-! ### Positions -/

def settingOf (tokens : List (Placed Token)) (maxNodes : Nat) : Setting :=
  ⟨maxNodes, (tokens.getLast?.map (·.position)).getD 0⟩

@[simp] theorem settingOf_maxNodes (tokens : List (Placed Token)) (maxNodes : Nat) :
    (settingOf tokens maxNodes).maxNodes = maxNodes := rfl

structure Counters.At (tokens : List (Placed Token)) (state : Counters) (cursor : Cursor) :
    Prop where
  rest_eq : tokens.drop state.position = cursor.rest
  nodes_eq : state.nodes = cursor.nodes
  within : state.position ≤ tokens.length

variable {tokens : List (Placed Token)} {maxNodes : Nat} {state : Counters} {cursor : Cursor}
  {token : Placed Token} {rest : List (Placed Token)}

namespace Counters.At

theorem length_eq (h : state.At tokens cursor) :
    cursor.rest.length = tokens.length - state.position := by
  rw [← h.rest_eq, List.length_drop]

theorem getElem?_eq (h : state.At tokens cursor) : tokens[state.position]? = cursor.rest.head? := by
  rw [← h.rest_eq, List.head?_drop]

theorem peek_cons (h : state.At tokens cursor) (hrest : cursor.rest = token :: rest) :
    peek tokens state = token.value := by
  rw [peek, h.getElem?_eq, hrest]
  rfl

theorem peek_nil (h : state.At tokens cursor) (hrest : cursor.rest = []) :
    peek tokens state = .finish := by
  rw [peek, h.getElem?_eq, hrest]
  rfl

theorem place_eq (h : state.At tokens cursor) (maxNodes : Nat) :
    place tokens state = (settingOf tokens maxNodes).position cursor.rest := by
  rw [place, h.getElem?_eq]
  cases cursor.rest with
  | nil => rfl
  | cons token rest => rfl

theorem fault_eq (h : state.At tokens cursor) (maxNodes : Nat) (cause : SyntaxFault) :
    fault tokens state cause = (settingOf tokens maxNodes).fault cursor.rest cause := by
  rw [fault, h.place_eq maxNodes, Setting.fault]

theorem advance (h : state.At tokens cursor) (hrest : cursor.rest = token :: rest) :
    (advance tokens state).At tokens ⟨rest, cursor.nodes⟩ := by
  have hlength := h.length_eq
  rw [hrest, List.length_cons] at hlength
  rw [Counting.advance, if_pos (by omega)]
  refine ⟨?_, h.nodes_eq, by change state.position + 1 ≤ _; omega⟩
  change tokens.drop (state.position + 1) = rest
  rw [← List.drop_drop, h.rest_eq, hrest]
  rfl

theorem forward (h : state.At tokens cursor) {after : Counters} {next : Cursor}
    (hafter : after.At tokens next) (hshorter : next.rest.length < cursor.rest.length) :
    Forward tokens state after := by
  have hlength := h.length_eq
  have hlength' := hafter.length_eq
  have hwithin := hafter.within
  exact ⟨by omega, hwithin⟩

end Counters.At

@[simp] theorem depth_advance : (advance tokens state).depth = state.depth := by
  rw [advance]
  split <;> rfl

/-! ### Runs that agree -/

/-- Two runs both succeed, with related results, or both reject the formula for the same reason. -/
inductive Agree {α β : Type} (R : α → β → Prop) : Except Halt α → Except ParseError β → Prop
  | ok {value : α} {value' : β} (h : R value value') : Agree R (.ok value) (.ok value')
  | rejected (error : ParseError) : Agree R (.error (.rejected error)) (.error error)

theorem Agree.bind {α β α' β' : Type} {R : α → β → Prop} {S : α' → β' → Prop}
    {first : Except Halt α} {first' : Except ParseError β} {next : α → Except Halt α'}
    {next' : β → Except ParseError β'} (h : Agree R first first')
    (hnext : ∀ value value', R value value' → Agree S (next value) (next' value')) :
    Agree S (first >>= next) (first' >>= next') := by
  cases h with
  | ok h => exact hnext _ _ h
  | rejected error => exact .rejected error

theorem Agree.rearrange {α β β' : Type} {R : α → β → Prop} {S : α → β' → Prop}
    {first : Except Halt α} {first' : Except ParseError β} {f : β → β'} (h : Agree R first first')
    (hf : ∀ value value', R value value' → S value (f value')) :
    Agree S first (first' >>= fun value' => pure (f value')) := by
  cases h with
  | ok h => exact .ok (hf _ _ h)
  | rejected error => exact .rejected error

theorem Agree.map {α β γ : Type} {R : α → β → Prop} {first : Except Halt α}
    {first' : Except ParseError β} {f : α → γ} {g : β → γ} (h : Agree R first first')
    (heq : ∀ value value', R value value' → f value = g value') :
    Agree (· = ·) (first.map f) (first'.map g) := by
  cases h with
  | ok h => exact .ok (heq _ _ h)
  | rejected error => exact .rejected error

theorem Agree.eq_mapError {α : Type} {first : Except Halt α} {first' : Except ParseError α}
    (h : Agree (· = ·) first first') : first = first'.mapError .rejected := by
  cases h with
  | ok h => exact congrArg Except.ok h
  | rejected error => rfl

theorem Agree.of_ok {α β : Type} {R : α → β → Prop} {value : α} {first' : Except ParseError β}
    (h : Agree R (.ok value) first') : ∃ value', first' = .ok value' ∧ R value value' := by
  cases h with
  | ok h => exact ⟨_, rfl, h⟩

theorem Agree.of_error {α β : Type} {R : α → β → Prop} {halt : Halt} {first' : Except ParseError β}
    (h : Agree R (.error halt) first') : ∃ error, halt = .rejected error := by
  cases h with
  | rejected error => exact ⟨error, rfl⟩

theorem Counters.At.fault_agrees {α β : Type} {R : α → β → Prop} (h : state.At tokens cursor)
    (cause : SyntaxFault) :
    Agree R (reject (fault tokens state cause))
      (.error ((settingOf tokens maxNodes).fault cursor.rest cause)) := by
  rw [h.fault_eq maxNodes]
  exact .rejected _

/-- A reading that ends at some depth, and the same step of the parser. -/
structure Matches (tokens : List (Placed Token)) (depth : Nat) {start : Cursor} (reading : Reading)
    (step : Step start) : Prop where
  tree_eq : reading.tree = step.tree
  height_eq : reading.height = step.height
  depth_eq : reading.after.depth = depth
  after : reading.after.At tokens step.next

/-- At some depth a routine ends as a rule does. -/
def Follows (tokens : List (Placed Token)) (depth : Nat) (routine : Routine) (rule : Rule) : Prop :=
  ∀ ⦃state : Counters⦄ ⦃cursor : Cursor⦄, state.At tokens cursor → state.depth = depth →
    Agree (Matches tokens depth) (routine state) (rule cursor)

variable {depth : Nat}

theorem countNode_agrees (h : state.At tokens cursor) (hdepth : state.depth = depth) :
    Agree (fun after nodes => after.depth = depth ∧ after.At tokens ⟨cursor.rest, nodes⟩)
      (countNode maxNodes state) ((settingOf tokens maxNodes).count cursor.nodes) := by
  rw [countNode, Setting.count, settingOf_maxNodes, h.nodes_eq]
  by_cases hlt : cursor.nodes < maxNodes
  · rw [if_neg (by omega), if_pos hlt]
    exact .ok ⟨hdepth, h.rest_eq, rfl, h.within⟩
  · rw [if_pos (by omega), if_neg hlt]
    exact .rejected _

theorem raise_agrees (height : Nat) : Agree (· = ·) (raise height) (heightAbove height) := by
  rw [raise, heightAbove]
  by_cases hlt : height < maxHeight
  · rw [if_neg (by omega), if_pos hlt]
    exact .ok rfl
  · rw [if_pos (by omega), if_neg hlt]
    exact .rejected _

theorem leaf_agrees (tree : Expr) {start : Cursor} (h : state.At tokens ⟨rest, start.nodes⟩)
    (hdepth : state.depth = depth) (shorter : rest.length < start.rest.length) :
    Agree (Matches tokens depth) (leaf maxNodes tree state)
      (Parser.leaf (settingOf tokens maxNodes) tree start rest shorter) := by
  refine (countNode_agrees h hdepth).bind fun after nodes hafter => ?_
  exact .ok ⟨rfl, rfl, hafter.1, hafter.2⟩

theorem branch_agrees (tree : Expr) (height : Nat) (h : state.At tokens cursor)
    (hdepth : state.depth = depth) {start : Cursor}
    (shorter : cursor.rest.length < start.rest.length) :
    Agree (Matches tokens depth) (branch maxNodes tree height state)
      (do
        let nodes ← (settingOf tokens maxNodes).count cursor.nodes
        let above ← heightAbove height
        return (⟨tree, above, ⟨cursor.rest, nodes⟩, shorter⟩ : Step start)) := by
  refine (countNode_agrees h hdepth).bind fun after nodes hafter => ?_
  refine (raise_agrees height).bind fun raised above habove => ?_
  exact .ok ⟨rfl, habove, hafter.1, hafter.2⟩

/-! ### Primaries -/

theorem named_agrees (name : String) {start : Cursor} (h : state.At tokens ⟨rest, start.nodes⟩)
    (hdepth : state.depth = depth) (shorter : rest.length < start.rest.length) :
    Agree (Matches tokens depth)
      (named maxNodes name ((settingOf tokens maxNodes).position start.rest) state)
      (Parser.named (settingOf tokens maxNodes) name start rest shorter) := by
  rw [named, Parser.named]
  split
  · exact leaf_agrees _ h hdepth _
  cases Constant.ofName? name with
  | some constant => exact leaf_agrees _ h hdepth _
  | none =>
      cases (Elementary.ofName? name).isSome with
      | true => exact .rejected _
      | false => exact .rejected _

variable {group exponent item : Routine} {groupRule exponentRule itemRule : Rule}

structure ArgumentsMatch (tokens : List (Placed Token)) (depth : Nat) {start : Cursor}
    (read : List (Expr × Nat) × Counters) (arguments : Arguments start) : Prop where
  trees_eq : read.1 = arguments.trees
  depth_eq : read.2.depth = depth
  after : read.2.At tokens arguments.next

theorem arguments_agree (hgroup : Follows tokens depth group groupRule) (name : String)
    (h : state.At tokens cursor) (hdepth : state.depth = depth) :
    Agree (ArgumentsMatch tokens depth) (arguments tokens group name state)
      (Parser.arguments (settingOf tokens maxNodes) groupRule name cursor) := by
  fun_induction Parser.arguments (settingOf tokens maxNodes) groupRule name cursor
      generalizing state with
  | case1 cursor ih =>
    rw [arguments]
    refine (hgroup h hdepth).bind fun argument step hargument => ?_
    obtain ⟨tree, height, ⟨rest, nodes⟩, shorter⟩ := step
    obtain ⟨htree, hheight, hdepth', hafter⟩ := hargument
    cases rest with
    | nil =>
        rw [hafter.peek_nil rfl]
        exact hafter.fault_agrees _
    | cons token rest =>
        have hnext := hafter.advance rfl
        obtain ⟨token, place⟩ := token
        rw [hafter.peek_cons rfl]
        cases token with
        | comma =>
            have hforward := h.forward hnext (Nat.lt_of_succ_lt shorter)
            change Agree _ (dite _ _ _) _
            rw [dif_pos hforward]
            refine (ih ⟨tree, height, _, shorter⟩ place rest rfl hnext
              (depth_advance.trans hdepth')).bind fun read others hread => ?_
            exact .ok ⟨by rw [hread.trees_eq, htree, hheight], hread.depth_eq, hread.after⟩
        | closeParen =>
            exact .ok ⟨by rw [htree, hheight], depth_advance.trans hdepth', hnext⟩
        | _ => exact hafter.fault_agrees _

theorem argumentList_agrees (hgroup : Follows tokens depth group groupRule) (name : String)
    (h : state.At tokens cursor) (hdepth : state.depth = depth) :
    Agree (ArgumentsMatch tokens depth) (argumentList tokens group name state)
      (Parser.argumentList (settingOf tokens maxNodes) groupRule name cursor) := by
  have harguments : Agree (ArgumentsMatch tokens depth) (arguments tokens group name state)
      (Parser.arguments (settingOf tokens maxNodes) groupRule name cursor) :=
    arguments_agree hgroup name h hdepth
  rw [argumentList]
  obtain ⟨rest, nodes⟩ := cursor
  cases rest with
  | nil =>
      rw [h.peek_nil rfl]
      exact harguments
  | cons token rest =>
      obtain ⟨token, place⟩ := token
      rw [h.peek_cons rfl]
      cases token with
      | closeParen => exact .ok ⟨rfl, depth_advance.trans hdepth, h.advance rfl⟩
      | _ => exact harguments

theorem call_agrees (hgroup : Follows tokens depth group groupRule) (name : String)
    (h : (advance tokens state).At tokens cursor) (hdepth : state.depth = depth) :
    Agree (Matches tokens depth) (call tokens maxNodes group name state)
      (Parser.call (settingOf tokens maxNodes) groupRule name cursor) := by
  rw [call, Parser.call]
  cases Elementary.ofName? name with
  | none => exact .rejected _
  | some function =>
      refine (argumentList_agrees hgroup name h (depth_advance.trans hdepth)).bind
        fun read arguments hread => ?_
      obtain ⟨trees, after⟩ := read
      obtain ⟨trees', next, shorter⟩ := arguments
      obtain ⟨rfl, hdepth', hafter⟩ := hread
      cases trees with
      | nil => exact .rejected _
      | cons argument trees =>
          cases trees with
          | nil => exact branch_agrees _ _ hafter hdepth' _
          | cons other trees => exact .rejected _

theorem primary_follows (hgroup : Follows tokens depth group groupRule) :
    Follows tokens depth (primary tokens maxNodes group)
      (Parser.primary (settingOf tokens maxNodes) groupRule) := by
  intro state cursor h hdepth
  obtain ⟨rest, nodes⟩ := cursor
  rw [primary]
  cases rest with
  | nil =>
      rw [h.peek_nil rfl]
      exact h.fault_agrees _
  | cons token rest =>
      have hnext := h.advance rfl
      have hdepth' : (advance tokens state).depth = depth := depth_advance.trans hdepth
      obtain ⟨token, position⟩ := token
      rw [h.peek_cons rfl]
      cases token with
      | number value => exact leaf_agrees _ hnext hdepth' _
      | openParen =>
          refine (hgroup hnext hdepth').bind fun inner step hinner => ?_
          obtain ⟨tree, height, ⟨rest, nodes⟩, shorter⟩ := step
          obtain ⟨htree, hheight, hdepth', hafter⟩ := hinner
          cases rest with
          | nil =>
              rw [hafter.peek_nil rfl]
              exact hafter.fault_agrees _
          | cons token rest =>
              obtain ⟨token, position⟩ := token
              rw [hafter.peek_cons rfl]
              cases token with
              | closeParen =>
                  exact .ok ⟨htree, hheight, depth_advance.trans hdepth', hafter.advance rfl⟩
              | _ => exact hafter.fault_agrees _
      | name name =>
          rw [h.place_eq maxNodes]
          cases rest with
          | nil =>
              rw [hnext.peek_nil rfl]
              exact named_agrees name hnext hdepth' _
          | cons token rest =>
              obtain ⟨token, position⟩ := token
              rw [hnext.peek_cons rfl]
              cases token with
              | openParen =>
                  refine (call_agrees hgroup name (hnext.advance rfl) hdepth').rearrange
                    fun reading step hstep => ?_
                  exact ⟨hstep.tree_eq, hstep.height_eq, hstep.depth_eq, hstep.after⟩
              | _ => exact named_agrees name hnext hdepth' _
      | _ => exact h.fault_agrees _

/-! ### Operators -/

theorem negation_agrees {inner : Reading} {start : Cursor} {step : Step start}
    (hinner : Matches tokens depth inner step) (hliteral : step.tree.isLiteral = false)
    {before : Cursor} (shorter : step.next.rest.length < before.rest.length) :
    Agree (Matches tokens depth)
      (do
        let minusOne ← leaf maxNodes (.literal (-1)) inner.after
        binary maxNodes .mul minusOne ⟨inner.tree, inner.height, minusOne.after⟩)
      (do
        let nodes ← (settingOf tokens maxNodes).count step.next.nodes
        let nodes ← (settingOf tokens maxNodes).count nodes
        let height ← heightAbove (max 1 step.height)
        return (⟨step.tree.negated, height, ⟨step.next.rest, nodes⟩, shorter⟩ : Step before)) := by
  have hnegated : step.tree.negated = .binary .mul (.literal (-1)) step.tree :=
    Expr.negated_of_ne_literal fun value heq => by simp [heq, Expr.isLiteral] at hliteral
  rw [leaf, bind_assoc, hnegated, hinner.tree_eq, hinner.height_eq]
  refine (countNode_agrees hinner.after hinner.depth_eq).bind fun after nodes hafter => ?_
  exact branch_agrees _ _ hafter.2 hafter.1 shorter

theorem operand_follows (hgroup : Follows tokens depth group groupRule) :
    Follows tokens depth (operand tokens maxNodes group)
      (Parser.operand (settingOf tokens maxNodes) groupRule) := by
  intro state cursor h hdepth
  have hplain : Agree (Matches tokens depth) (primary tokens maxNodes group state) _ :=
    primary_follows hgroup h hdepth
  obtain ⟨rest, nodes⟩ := cursor
  rw [operand]
  cases rest with
  | nil =>
      rw [h.peek_nil rfl]
      exact hplain
  | cons token rest =>
      obtain ⟨token, position⟩ := token
      rw [h.peek_cons rfl]
      by_cases hsub : token = .operator .sub
      · subst hsub
        refine (primary_follows hgroup (h.advance rfl) (depth_advance.trans hdepth)).bind
          fun inner step hinner => ?_
        obtain ⟨tree, height, after⟩ := inner
        obtain ⟨tree', height', next, shorter⟩ := step
        obtain rfl : tree = tree' := hinner.tree_eq
        cases tree with
        | literal value => exact .ok ⟨rfl, hinner.height_eq, hinner.depth_eq, hinner.after⟩
        | _ =>
            have hshorter : next.rest.length < (⟨⟨.operator .sub, position⟩ :: rest, nodes⟩ :
                Cursor).rest.length := Nat.lt_succ_of_lt shorter
            exact negation_agrees hinner rfl hshorter
      · cases token with
        | operator operator =>
            cases operator with
            | sub => exact absurd rfl hsub
            | _ => exact hplain
        | _ => exact hplain

theorem powerOf_follows (hgroup : Follows tokens depth group groupRule)
    (hexponent : Follows tokens depth exponent exponentRule) :
    Follows tokens depth (powerOf tokens maxNodes group exponent)
      (Parser.powerOf (settingOf tokens maxNodes) groupRule exponentRule) := by
  intro state cursor h hdepth
  refine (operand_follows hgroup h hdepth).bind fun base step hbase => ?_
  obtain ⟨tree, height, ⟨rest, nodes⟩, shorter⟩ := step
  have hafter := hbase.after
  cases rest with
  | nil =>
      rw [hafter.peek_nil rfl]
      exact .ok hbase
  | cons token rest =>
      obtain ⟨token, position⟩ := token
      rw [hafter.peek_cons rfl]
      by_cases hpow : token = .operator .pow
      · subst hpow
        refine (hexponent (hafter.advance rfl) (depth_advance.trans hbase.depth_eq)).bind
          fun raised step hraised => ?_
        rw [binary, hbase.tree_eq, hbase.height_eq, hraised.tree_eq, hraised.height_eq]
        exact branch_agrees _ _ hraised.after hraised.depth_eq
          (Nat.lt_trans step.shorter (Nat.lt_of_succ_lt shorter))
      · cases token with
        | operator operator =>
            cases operator with
            | pow => exact absurd rfl hpow
            | _ => exact .ok hbase
        | _ => exact .ok hbase

theorem joinFrom_agrees {fits : Operator → Bool} (hitem : Follows tokens depth item itemRule)
    {start : Cursor} {left : Reading} {step : Step start} (hleft : Matches tokens depth left step) :
    Agree (Matches tokens depth) (joinFrom tokens maxNodes fits item left)
      (Parser.joinFrom (settingOf tokens maxNodes) fits itemRule step) := by
  fun_induction Parser.joinFrom (settingOf tokens maxNodes) fits itemRule step
      generalizing left with
  | case1 step operator position rest hrest hfits ih =>
      rw [joinFrom, hleft.after.peek_cons hrest]
      change Agree _ (ite _ _ _) _
      rw [if_pos hfits]
      refine (hitem (hleft.after.advance hrest) (depth_advance.trans hleft.depth_eq)).bind
        fun right step' hright => ?_
      rw [binary, branch, bind_assoc]
      refine (countNode_agrees hright.after hright.depth_eq).bind fun after nodes hafter => ?_
      rw [hleft.height_eq, hright.height_eq, bind_assoc]
      refine (raise_agrees _).bind fun above above' habove => ?_
      have hshorter : step'.next.rest.length < step.next.rest.length :=
        Nat.lt_trans step'.shorter (Cursor.shorter_of_cons hrest)
      rw [pure_bind, dif_pos (hleft.after.forward hafter.2 hshorter)]
      have htree := congrArg₂ (Expr.binary operator) hleft.tree_eq hright.tree_eq
      exact ih step' nodes above' ⟨htree, habove, hafter.1, hafter.2⟩
  | case2 step operator position rest hrest hfits =>
      rw [joinFrom, hleft.after.peek_cons hrest]
      change Agree _ (ite _ _ _) _
      rw [if_neg hfits]
      exact .ok hleft
  | case3 step hrest =>
      have hdone : joinFrom tokens maxNodes fits item left = .ok left := by
        rw [joinFrom]
        split
        · next operator hpeek =>
          cases hnext : step.next.rest with
          | nil =>
              rw [hleft.after.peek_nil hnext] at hpeek
              cases hpeek
          | cons token rest =>
              rw [hleft.after.peek_cons hnext] at hpeek
              obtain ⟨token, position⟩ := token
              subst hpeek
              exact (hrest _ _ _ hnext).elim
        · rfl
      rw [hdone]
      exact .ok hleft

theorem joined_follows (fits : Operator → Bool) (hitem : Follows tokens depth item itemRule) :
    Follows tokens depth (joined tokens maxNodes fits item)
      (Parser.joined (settingOf tokens maxNodes) fits itemRule) := by
  intro state cursor h hdepth
  exact (hitem h hdepth).bind fun left step hleft => joinFrom_agrees hitem hleft

theorem sumOf_follows (hitem : Follows tokens depth item itemRule) :
    Follows tokens depth (sumOf tokens maxNodes item)
      (Parser.sumOf (settingOf tokens maxNodes) itemRule) :=
  joined_follows _ (joined_follows _ hitem)

/-! ### Levels -/

theorem nested_follows_of_lt (hdepth : depth < maxNesting)
    (hinner : Follows tokens (depth + 1) item itemRule) :
    Follows tokens depth (nested item) itemRule := by
  intro state cursor h hstate
  rw [nested, descend, if_neg (by omega), ← bind_pure (itemRule cursor)]
  have hopened : Counters.At tokens { state with depth := state.depth + 1 } cursor :=
    ⟨h.rest_eq, h.nodes_eq, h.within⟩
  refine (hinner hopened (congrArg (· + 1) hstate)).bind fun reading step hmatches => ?_
  have hafter := hmatches.after
  rw [ascend, hmatches.depth_eq]
  exact .ok ⟨hmatches.tree_eq, hmatches.height_eq, rfl, hafter.rest_eq, hafter.nodes_eq,
    hafter.within⟩

theorem nested_follows_tooDeep (hdepth : maxNesting ≤ depth) :
    Follows tokens depth (nested item) tooDeep := by
  intro state cursor h hstate
  rw [nested, descend, if_pos (by omega)]
  exact .rejected _

/-- A rule for every number of levels follows, if without levels it refuses everything. -/
theorem nested_follows {rules : Nat → Rule} (hnone : rules 0 = tooDeep)
    (hinner : ∀ levels, maxNesting = depth + 1 + levels →
      Follows tokens (depth + 1) item (rules (levels + 1))) :
    Follows tokens depth (nested item) (rules (maxNesting - depth)) := by
  by_cases hdepth : depth < maxNesting
  · obtain ⟨levels, hlevels⟩ := Nat.exists_eq_add_of_le hdepth
    have hleft : maxNesting - depth = levels + 1 := by omega
    rw [hleft]
    exact nested_follows_of_lt hdepth (hinner levels hlevels)
  · rw [Nat.sub_eq_zero_of_le (Nat.le_of_not_lt hdepth), hnone]
    exact nested_follows_tooDeep (Nat.le_of_not_lt hdepth)

/-- The fuel is enough for all levels that are left, and for one more, which is refused. -/
theorem power_follows {fuel : Nat} (hfuel : 0 < fuel) (hlevels : maxNesting < fuel + depth) :
    Follows tokens depth (power tokens maxNodes fuel)
      (Parser.power (settingOf tokens maxNodes) (maxNesting - depth)) := by
  induction fuel generalizing depth with
  | zero => exact absurd hfuel (Nat.lt_irrefl 0)
  | succ fuel ih =>
      have hpower : ∀ levels, maxNesting = depth + 1 + levels →
          Follows tokens (depth + 1) (power tokens maxNodes fuel)
            (Parser.power (settingOf tokens maxNodes) levels) := by
        intro levels hleft
        have hlevels' : maxNesting - (depth + 1) = levels := by omega
        rw [← hlevels']
        exact ih (by omega) (by omega)
      rw [power_eq]
      refine powerOf_follows (nested_follows rfl fun levels hleft => ?_) (nested_follows rfl hpower)
      exact sumOf_follows (hpower levels hleft)

theorem sum_follows {fuel : Nat} (hfuel : 0 < fuel) (hlevels : maxNesting < fuel + depth) :
    Follows tokens depth (sum tokens maxNodes fuel)
      (sumAt (settingOf tokens maxNodes) (maxNesting - depth)) := by
  obtain ⟨fuel, rfl⟩ := Nat.exists_eq_add_one.2 hfuel
  refine nested_follows rfl fun levels hleft => sumOf_follows ?_
  have hlevels' : maxNesting - (depth + 1) = levels := by omega
  rw [← hlevels']
  exact power_follows (by omega) (by omega)

def ruleAt (setting : Setting) (levels : Nat) : Category → Rule
  | .joined .additive => sumAt setting levels
  | .joined .multiplicative =>
    Parser.joined setting Operator.isMultiplicative (Parser.power setting levels)
  | .power => Parser.power setting levels
  | .operand => Parser.operand setting (sumAt setting levels)
  | .primary => Parser.primary setting (sumAt setting levels)

theorem routine_follows {fuel : Nat} (hfuel : maxNesting < fuel) (category : Category) :
    Follows tokens depth (routine tokens maxNodes fuel category)
      (ruleAt (settingOf tokens maxNodes) (maxNesting - depth) category) := by
  have hpos : 0 < fuel := Nat.zero_lt_of_lt hfuel
  have hlevels : maxNesting < fuel + depth := Nat.lt_add_right depth hfuel
  match category with
  | .joined .additive => exact sum_follows hpos hlevels
  | .joined .multiplicative => exact joined_follows _ (power_follows hpos hlevels)
  | .power => exact power_follows hpos hlevels
  | .operand => exact operand_follows (sum_follows hpos hlevels)
  | .primary => exact primary_follows (sum_follows hpos hlevels)

/-! ### Whole formulas -/

theorem complete_agrees (maxNodes : Nat) {root : Reading} {start : Cursor} {step : Step start}
    (hroot : Matches tokens depth root step) :
    Agree (· = ·) (complete tokens root)
      (match step.next.rest with
        | ⟨.closeParen, _⟩ :: _ =>
          throw ((settingOf tokens maxNodes).fault step.next.rest .unmatchedClose)
        | rest =>
          if atEnd rest then return (step.tree, step.next.nodes)
          else throw ((settingOf tokens maxNodes).fault rest .trailingInput)) := by
  have hafter := hroot.after
  rw [complete, hroot.tree_eq, hafter.nodes_eq]
  cases hrest : step.next.rest with
  | nil =>
      rw [hafter.peek_nil hrest]
      exact .ok rfl
  | cons token rest =>
      have hfault := hafter.fault_eq maxNodes
      rw [hrest] at hfault
      obtain ⟨token, position⟩ := token
      rw [hafter.peek_cons hrest, hfault, hfault]
      cases token with
      | finish => exact .ok rfl
      | _ => exact .rejected _

theorem parse_agrees {fuel : Nat} (hfuel : maxNesting < fuel) :
    Agree (· = ·) (parse tokens maxNodes fuel) (Parser.parse tokens maxNodes) := by
  have hstart : Counters.At tokens ⟨0, 0, 0⟩ ⟨tokens, 0⟩ := ⟨rfl, rfl, Nat.zero_le _⟩
  have hformula : Follows tokens 0 (sum tokens maxNodes fuel)
      (formula (settingOf tokens maxNodes)) := sum_follows (Nat.zero_lt_of_lt hfuel) hfuel
  have hroot := (hformula hstart rfl).bind fun root step hmatches =>
    complete_agrees maxNodes hmatches
  rw [parse, Parser.parse]
  cases tokens with
  | nil => exact .rejected _
  | cons token rest =>
      obtain ⟨token, position⟩ := token
      cases token with
      | finish => exact .rejected _
      | _ => exact hroot

theorem sound_sumAt (setting : Setting) (levels : Nat) :
    Sound setting .sum levels (sumAt setting levels) := by
  cases levels with
  | zero => exact sound_tooDeep _
  | succ levels => exact sound_sumOf (sound_power setting levels)

/-- Every rule that reads a part of the grammar counts what it reads. -/
theorem sound_ruleAt (setting : Setting) (levels : Nat) (category : Category) :
    ∃ nesting, Sound setting category nesting (ruleAt setting levels category) := by
  match category with
  | .joined .additive => exact ⟨_, sound_sumAt setting levels⟩
  | .joined .multiplicative => exact ⟨_, sound_joined .multiplicative (sound_power setting levels)⟩
  | .power => exact ⟨_, sound_power setting levels⟩
  | .operand => exact ⟨_, sound_operand (sound_sumAt setting levels)⟩
  | .primary => exact ⟨_, sound_primary (sound_sumAt setting levels)⟩

/-- What a routine has read, and where it has left the parse. -/
structure Keeps (tokens : List (Placed Token)) (maxNodes : Nat) (entry : Counters)
    (reading : Reading) : Prop where
  ahead : entry.position < reading.after.position
  within : reading.after.position ≤ tokens.length
  depth_eq : reading.after.depth = entry.depth
  nodes_eq : reading.after.nodes = entry.nodes + reading.tree.size
  nodes_le : reading.after.nodes ≤ maxNodes
  size_le : reading.tree.size ≤ 2 * (reading.after.position - entry.position)
  height_eq : reading.height = reading.tree.height
  height_le : reading.height ≤ maxHeight

/-! ### Counters as machine words -/

/-- The nodes made so far, and two for each token that is left. -/
def Counters.reach (tokens : List (Placed Token)) (state : Counters) : Nat :=
  state.nodes + 2 * (tokens.length - state.position)

/-- The counters are machine words of 64 bits. -/
structure Counters.Fits (state : Counters) : Prop where
  position_lt : state.position < 2 ^ 64
  depth_lt : state.depth < 2 ^ 64
  nodes_lt : state.nodes < 2 ^ 64

namespace Keeps

variable {entry : Counters} {reading : Reading}

theorem reach_le (hkeeps : Keeps tokens maxNodes entry reading) :
    reading.after.reach tokens ≤ entry.reach tokens := by
  have hahead := hkeeps.ahead
  have hwithin := hkeeps.within
  have hnodes := hkeeps.nodes_eq
  have hsize := hkeeps.size_le
  rw [Counters.reach, Counters.reach]
  omega

/--
Two nodes at most are made for a token. So a routine that starts with counters in the range of
machine words, and with room there for two nodes a token, leaves them in that range, where words
count as natural numbers do.
-/
theorem fits (hkeeps : Keeps tokens maxNodes entry reading) (hdepth : entry.depth < 2 ^ 64)
    (hwords : entry.nodes + 2 * tokens.length < 2 ^ 64) : reading.after.Fits where
  position_lt := by
    have hwithin := hkeeps.within
    omega
  depth_lt := hkeeps.depth_eq ▸ hdepth
  nodes_lt := by
    have hreach := hkeeps.reach_le
    rw [Counters.reach, Counters.reach] at hreach
    omega

end Keeps

/-! ### Main statement -/

/-- The subtree of a reading with what a cursor knows of the rest. -/
def Reading.outline (tokens : List (Placed Token)) (reading : Reading) :
    Expr × Nat × List (Placed Token) × Nat :=
  (reading.tree, reading.height, tokens.drop reading.after.position, reading.after.nodes)

def stepOutline {start : Cursor} (step : Step start) : Expr × Nat × List (Placed Token) × Nat :=
  (step.tree, step.height, step.next.rest, step.next.nodes)

theorem keeps_of_matches {category : Category} {nesting : Nat} {reading : Reading}
    {step : Step cursor} (h : state.At tokens cursor)
    (hmatches : Matches tokens state.depth reading step)
    (hreads : Reads (settingOf tokens maxNodes) category nesting step) :
    Keeps tokens maxNodes state reading where
  ahead := (h.forward hmatches.after step.shorter).1
  within := hmatches.after.within
  depth_eq := hmatches.depth_eq
  nodes_eq := by rw [hmatches.after.nodes_eq, hmatches.tree_eq, h.nodes_eq, hreads.nodes_eq]
  nodes_le := by
    rw [hmatches.after.nodes_eq]
    exact hreads.nodes_le
  size_le := by
    obtain ⟨read, depth, hvalues, hderives, -⟩ := hreads.derives
    have hsize := hderives.size_le
    have hlength := congrArg List.length hvalues
    rw [Cursor.values, Cursor.values, List.length_append, List.length_map, List.length_map,
      h.length_eq, hmatches.after.length_eq] at hlength
    have hwithin := hmatches.after.within
    have hbefore := h.within
    rw [hmatches.tree_eq]
    omega
  height_eq := by rw [hmatches.height_eq, hmatches.tree_eq, hreads.height_eq]
  height_le := by
    rw [hmatches.height_eq]
    exact hreads.height_le

/--
Parsing by position is parsing: a whole formula has the same tree and the same number of nodes, or
is rejected for the same reason. From every position that is not past the end, at every depth and
with every number of nodes made before, each routine reads what the rule for the same part reads
there. A routine that succeeds keeps the books; one that does not has rejected the formula, so no
level was closed while none was open, no loop stood still, and the fuel was enough.
-/
theorem bookkeeping (tokens : List (Placed Token)) (maxNodes : Nat) {fuel : Nat}
    (hfuel : maxNesting < fuel) :
    parse tokens maxNodes fuel = (Parser.parse tokens maxNodes).mapError .rejected ∧
    ∀ (category : Category) (entry : Counters), entry.position ≤ tokens.length →
      (routine tokens maxNodes fuel category entry).map (Reading.outline tokens) =
        ((ruleAt (settingOf tokens maxNodes) (maxNesting - entry.depth) category
          ⟨tokens.drop entry.position, entry.nodes⟩).map stepOutline).mapError .rejected ∧
      (∀ reading, routine tokens maxNodes fuel category entry = .ok reading →
        Keeps tokens maxNodes entry reading) ∧
      ∀ halt, routine tokens maxNodes fuel category entry = .error halt →
        ∃ error, halt = .rejected error := by
  refine ⟨(parse_agrees hfuel).eq_mapError, fun category entry hwithin => ?_⟩
  have hentry : entry.At tokens ⟨tokens.drop entry.position, entry.nodes⟩ := ⟨rfl, rfl, hwithin⟩
  have hrun : Agree (Matches tokens entry.depth) (routine tokens maxNodes fuel category entry) _ :=
    routine_follows hfuel category hentry rfl
  refine ⟨(hrun.map fun reading step hmatches => ?_).eq_mapError, fun reading hreading => ?_,
    fun halt hhalt => ?_⟩
  · have hafter := hmatches.after
    rw [Reading.outline, stepOutline, hmatches.tree_eq, hmatches.height_eq, hafter.rest_eq,
      hafter.nodes_eq]
  · rw [hreading] at hrun
    obtain ⟨step, hstep, hmatches⟩ := hrun.of_ok
    obtain ⟨nesting, hsound⟩ :=
      sound_ruleAt (settingOf tokens maxNodes) (maxNesting - entry.depth) category
    exact keeps_of_matches hentry hmatches (hsound hstep)
  · rw [hhalt] at hrun
    exact hrun.of_error

/-- `2**-t`, three levels deep and behind seven nodes, makes five nodes more on the same level. -/
theorem bookkeeping_raised :
    Keeps
      [⟨.number 2, 0⟩, ⟨.operator .pow, 1⟩, ⟨.operator .sub, 3⟩, ⟨.name "t", 4⟩, ⟨.finish, 5⟩]
      64 ⟨0, 3, 7⟩
      ⟨.binary .pow (.literal 2) (.binary .mul (.literal (-1)) .time), 3, ⟨4, 3, 12⟩⟩ :=
  ((bookkeeping _ 64 (Nat.lt_succ_self maxNesting)).2 .power ⟨0, 3, 7⟩ (by decide)).2.1 _ rfl

end Parser.Counting

end Waveform.Formula
