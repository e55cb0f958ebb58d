import Waveform.Proofs.Formula.Acceptance
import Waveform.Proofs.Formula.Rendering

/-!
# Written trees are read again

A tree whose literals are finite is compiled from its own text, with all its nodes, into itself.
The text puts parentheses around every operation, so the nesting grows with the height of the tree
and is the only limit that can be in the way: the height is at most the nesting, and the nesting
is less than twice the height.

The induction is on the tree, for every number of levels that may be left: a tree is read as an
operand if its subtrees are. Main statement: `compileWith_render`.
-/

namespace Waveform.Formula

open Decimal (Content pack)

/-- The nesting of a right operand: an exponent opens a level of its own. -/
def Operator.rightNesting (operator : Operator) (nesting : Nat) : Nat :=
  if operator = .pow then nesting + 1 else nesting

/-- How many levels of nesting the written tree opens, the whole of it being the first. -/
def Expr.depth : Expr → Nat
  | literal _ | time => 1
  | call _ argument => argument.depth + 1
  | binary operator left right =>
    max left.depth (operator.rightNesting right.depth) + 1

theorem Expr.depth_pos (tree : Expr) : 0 < tree.depth := by
  cases tree <;> simp [depth]

theorem Expr.height_le_depth (tree : Expr) : tree.height ≤ tree.depth := by
  induction tree with
  | literal value => exact Nat.le_refl _
  | time => exact Nat.le_refl _
  | call function argument ih => exact Nat.succ_le_succ ih
  | binary operator left right ihLeft ihRight =>
      rw [height, depth, Operator.rightNesting]
      split <;> omega

/-- Each level of height opens at most two levels of nesting. -/
theorem Expr.depth_lt (tree : Expr) : tree.depth < 2 * tree.height := by
  induction tree with
  | literal value => exact Nat.lt_succ_self _
  | time => exact Nat.lt_succ_self _
  | call function argument ih =>
      rw [height, depth]
      omega
  | binary operator left right ihLeft ihRight =>
      rw [height, depth, Operator.rightNesting]
      split <;> omega

namespace Parser

def sumAt (setting : Setting) : Nat → Rule
  | 0 => tooDeep
  | levels + 1 => sumOf setting (power setting levels)

def powerAt (setting : Setting) : Nat → Rule
  | 0 => tooDeep
  | levels + 1 => power setting levels

theorem power_eq (setting : Setting) (levels : Nat) :
    power setting levels = powerOf setting (sumAt setting levels) (powerAt setting levels) := by
  cases levels <;> rfl

/--
A rule reads a written tree in front of it, unless the nesting is too much. The node limit is not
in the way.
-/
def Reread (setting : Setting) (category : Category) (levels : Nat) (rule : Rule) (tree : Expr) :
    Prop :=
  ∀ ⦃excess : Nat → Prop⦄ ⦃start : Cursor⦄ ⦃after : List Token⦄,
    start.values = tree.tokens ++ after → category.Stops after →
    start.nodes + tree.size ≤ setting.maxNodes → (levels < tree.depth → excess maxNesting) →
    Outcome excess levels tree tree.depth after (rule start)

variable {setting : Setting} {levels : Nat} {group exponent item : Rule} {tree left right : Expr}

theorem reread_tooDeep (category : Category) (tree : Expr) :
    Reread setting category 0 tooDeep tree := by
  intro excess start after hstart hafter hnodes hnesting
  exact .of_excess (hnesting tree.depth_pos)

theorem Reread.powerOf (hoperand : Reread setting .operand levels (operand setting group) tree) :
    Reread setting .power levels (powerOf setting group exponent) tree := by
  intro excess start after hstart hafter hnodes hnesting
  exact .single hafter (hoperand hstart hafter.operand_of_power hnodes hnesting)

theorem Reread.joined {level : Level} (hitem : Reread setting level.operand levels item tree) :
    Reread setting (.joined level) levels (joined setting level.fits item) tree := by
  intro excess start after hstart hafter hnodes hnesting
  exact .alone hafter (hitem hstart hafter.operand_of_joined hnodes hnesting)

/-- Being read as an operand, whatever the levels that are left. -/
def RereadOperand (setting : Setting) (tree : Expr) : Prop :=
  ∀ levels < maxHeight,
    Reread setting .operand (levels + 1) (operand setting (sumAt setting levels)) tree

theorem RereadOperand.powerAt (hoperand : RereadOperand setting tree)
    (hlevels : levels ≤ maxHeight) :
    Reread setting .power levels (powerAt setting levels) tree := by
  cases levels with
  | zero => exact reread_tooDeep _ tree
  | succ levels =>
      rw [Parser.powerAt, power_eq]
      exact (hoperand levels hlevels).powerOf

theorem RereadOperand.sumAt (hoperand : RereadOperand setting tree)
    (hlevels : levels ≤ maxHeight) :
    Reread setting .sum levels (sumAt setting levels) tree := by
  cases levels with
  | zero => exact reread_tooDeep _ tree
  | succ levels =>
      have hproduct : Reread setting .product (levels + 1) _ tree :=
        (hoperand.powerAt hlevels).joined
      exact hproduct.joined

/-! ### The operands of an operator -/

theorem outcome_joined {level : Level} {operator : Operator} {excess : Nat → Prop} {start : Cursor}
    {after : List Token} (hfits : level.fits operator = true) (hlevels : levels < maxHeight)
    (hleft : Reread setting level.operand levels item left)
    (hright : Reread setting level.operand levels item right)
    (hstart : start.values = left.tokens ++ .operator operator :: (right.tokens ++ after))
    (hafter : (Category.joined level).Stops after)
    (hnodes : start.nodes + (Expr.binary operator left right).size ≤ setting.maxNodes)
    (hnesting : levels < max left.depth right.depth → excess maxNesting) :
    Outcome excess levels (.binary operator left right) (max left.depth right.depth) after
      (joined setting level.fits item start) := by
  have hsize : (Expr.binary operator left right).size = left.size + right.size + 1 := rfl
  have hfirst : Outcome excess levels left left.depth
      (.operator operator :: (right.tokens ++ after)) (item start) :=
    hleft hstart (Category.stops_of_fits hfits _) (by omega) fun hlt => hnesting (by omega)
  refine hfirst.bind fun step harrives hdepth => ?_
  let joint : Joint := ⟨operator, right.tokens, right, right.depth⟩
  have harrives : Arrives step left (joint.spelling ++ after) := harrives
  refine .join harrives hfits (fun start' hstart' hnodes' => ?_) (fun hlt => ?_)
    (fun hdepth' hlt => ?_) fun left' hleft' hdepth' => ?_
  · exact hright hstart' hafter.operand_of_joined (by omega) fun hlt => hnesting (by omega)
  · have hjoin : (joint.join left).size = left.size + right.size + 1 := rfl
    omega
  · have hjoin : (joint.join left).height = max left.height right.height + 1 := rfl
    have hdepth' : right.depth ≤ levels := hdepth'
    have hheight := left.height_le_depth
    have hheight' := right.height_le_depth
    omega
  · rw [joinFrom_of_stops (hleft'.values_eq ▸ hafter)]
    exact .of_ok hleft' (Nat.max_le.mpr ⟨hdepth, hdepth'⟩)

theorem outcome_raised {excess : Nat → Prop} {start : Cursor} {after : List Token}
    (hlevels : levels + 1 < maxHeight)
    (hleft : Reread setting .operand (levels + 1) (operand setting group) left)
    (hright : Reread setting .power levels exponent right)
    (hstart : start.values = left.tokens ++ .operator .pow :: (right.tokens ++ after))
    (hafter : Category.power.Stops after)
    (hnodes : start.nodes + (Expr.binary .pow left right).size ≤ setting.maxNodes)
    (hnesting : levels + 1 < max left.depth (right.depth + 1) → excess maxNesting) :
    Outcome excess (levels + 1) (.binary .pow left right) (max left.depth (right.depth + 1)) after
      (powerOf setting group exponent start) := by
  have hsize : (Expr.binary .pow left right).size = left.size + right.size + 1 := rfl
  have hheight : (Expr.binary .pow left right).height = max left.height right.height + 1 := rfl
  have hheight' := left.height_le_depth
  have hheight'' := right.height_le_depth
  refine .raised right.tokens ?_ (fun start' hstart' hnodes' => ?_) (fun hlt => by omega)
    fun hdepth hlt => by omega
  · exact hleft hstart rfl (by omega) fun hlt => hnesting (by omega)
  · exact hright hstart' hafter (by omega) fun hlt => hnesting (by omega)

theorem outcome_binary {operator : Operator} {excess : Nat → Prop} {start : Cursor}
    {after : List Token} (hlevels : levels < maxHeight)
    (hleft : RereadOperand setting left) (hright : RereadOperand setting right)
    (hstart : start.values = left.tokens ++ .operator operator :: (right.tokens ++ after))
    (hafter : Category.sum.Stops after)
    (hnodes : start.nodes + (Expr.binary operator left right).size ≤ setting.maxNodes)
    (hnesting : levels < max left.depth (operator.rightNesting right.depth) → excess maxNesting) :
    Outcome excess levels (.binary operator left right)
      (max left.depth (operator.rightNesting right.depth)) after (sumAt setting levels start) := by
  cases levels with
  | zero => exact .of_excess (hnesting (Nat.lt_of_lt_of_le left.depth_pos (Nat.le_max_left _ _)))
  | succ levels =>
      have hpowerLeft : Reread setting .power (levels + 1) (power setting levels) left :=
        hleft.powerAt (Nat.le_of_lt hlevels)
      have hpowerRight : Reread setting .power (levels + 1) (power setting levels) right :=
        hright.powerAt (Nat.le_of_lt hlevels)
      cases operator with
      | add | sub =>
          exact outcome_joined rfl hlevels hpowerLeft.joined hpowerRight.joined hstart hafter hnodes
            hnesting
      | mul | div =>
          apply Outcome.alone hafter
          exact outcome_joined rfl hlevels hpowerLeft hpowerRight hstart hafter.operand_of_joined
            hnodes hnesting
      | pow =>
          apply Outcome.alone hafter
          apply Outcome.alone hafter.operand_of_joined
          rw [power_eq]
          have hlower := Nat.lt_of_succ_lt hlevels
          exact outcome_raised hlevels (hleft levels hlower) (hright.powerAt (Nat.le_of_lt hlower))
            hstart hafter.operand_of_joined.operand_of_joined hnodes hnesting

/-! ### Written trees -/

theorem exists_first_token {tree : Expr} (hfinite : tree.Finite) :
    ∃ first rest, tree.tokens = first :: rest ∧ first ≠ .closeParen ∧ first ≠ .finish := by
  cases tree with
  | literal value =>
      obtain ⟨negative, magnitude, hcontent⟩ := Decimal.isFinite_iff.mp hfinite
      rw [Expr.tokens, Expr.pieces, numberPieces, hcontent]
      cases negative with
      | false => exact ⟨_, _, rfl, Token.noConfusion, Token.noConfusion⟩
      | true => exact ⟨_, _, rfl, Token.noConfusion, Token.noConfusion⟩
  | _ => exact ⟨_, _, rfl, Token.noConfusion, Token.noConfusion⟩

theorem rereadOperand_literal {value : Float} (hfinite : value.isFinite = true) :
    RereadOperand setting (.literal value) := by
  intro levels hlevels excess start after hstart hafter hnodes hnesting
  obtain ⟨negative, magnitude, hcontent⟩ := Decimal.isFinite_iff.mp hfinite
  have hvalue := Decimal.eq_of_content hcontent
  rw [Expr.tokens, Expr.pieces, numberPieces, hcontent] at hstart
  have hsize : ∀ value, (Expr.literal value).size = 1 := fun _ => rfl
  rw [hsize] at hnodes
  cases negative with
  | false =>
      rw [if_neg Bool.false_ne_true] at hvalue
      rw [hvalue, operand_eq_primary (by simp [hstart])]
      exact .number hstart fun hlt => by omega
  | true =>
      rw [if_pos rfl] at hvalue
      rw [hvalue]
      have hmagnitude : ∀ start' : Cursor,
          start'.values = [.number (pack magnitude false)] ++ after →
          start'.nodes = start.nodes →
          Outcome excess (levels + 1) (.literal (pack magnitude false)) 1 after
            (primary setting (sumAt setting levels) start') :=
        fun start' hstart' hnodes' => .number hstart' fun hlt => by omega
      refine .negative hstart hmagnitude (fun hlt => ?_) fun hdepth hlt => ?_
      · have hlt : setting.maxNodes < start.nodes + 1 := hlt
        omega
      · have hlt : maxHeight < 1 := hlt
        exact absurd hlt (by decide)

theorem rereadOperand_time : RereadOperand setting .time := by
  intro levels hlevels excess start after hstart hafter hnodes hnesting
  have hsize : Expr.time.size = 1 := rfl
  rw [operand_eq_primary (by simp [hstart, Expr.tokens, Expr.pieces])]
  exact .time hstart hafter fun hlt => by omega

theorem RereadOperand.call {argument : Expr} (hargument : RereadOperand setting argument)
    (hfinite : argument.Finite) (function : Elementary) :
    RereadOperand setting (.call function argument) := by
  intro levels hlevels excess start after hstart hafter hnodes hnesting
  have hsize : (Expr.call function argument).size = argument.size + 1 := rfl
  rw [Expr.tokens_call, List.cons_append, List.cons_append, List.append_assoc] at hstart
  rw [operand_eq_primary (by simp [hstart])]
  rw [Expr.depth] at hnesting ⊢
  obtain ⟨first, more, hfirst, hclose, -⟩ := exists_first_token hfinite
  refine .called hstart (fun rest heq => ?_) (fun start' hstart' hnodes' => ?_)
    (fun hlt => by omega) fun hdepth hlt => ?_
  · rw [hfirst, List.cons_append, List.cons.injEq] at heq
    exact hclose heq.1
  · exact hargument.sumAt (by omega) hstart' trivial (by omega) fun hlt => hnesting (by omega)
  · have hheight := argument.height_le_depth
    omega

theorem RereadOperand.binary (hleft : RereadOperand setting left)
    (hright : RereadOperand setting right) (operator : Operator) :
    RereadOperand setting (.binary operator left right) := by
  intro levels hlevels excess start after hstart hafter hnodes hnesting
  rw [Expr.tokens_binary, List.cons_append, List.append_assoc] at hstart
  rw [operand_eq_primary (by simp [hstart])]
  refine .grouped hstart fun start' hstart' hnodes' => ?_
  rw [List.append_assoc] at hstart'
  exact outcome_binary hlevels hleft hright hstart' trivial (by omega)
    fun hlt => hnesting (Nat.succ_lt_succ hlt)

theorem rereadOperand (setting : Setting) {tree : Expr} (hfinite : tree.Finite) :
    RereadOperand setting tree := by
  induction tree with
  | literal value => exact rereadOperand_literal hfinite
  | time => exact rereadOperand_time
  | call function argument ih => exact (ih hfinite).call hfinite function
  | binary operator left right ihLeft ihRight =>
      exact (ihLeft hfinite.1).binary (ihRight hfinite.2) operator

theorem parse_of_tokens {tokens : List (Placed Token)} (hfinite : tree.Finite)
    (hvalues : tokens.map (·.value) = tree.tokens ++ [.finish]) :
    parse tokens tree.size =
      if tree.depth ≤ maxNesting then .ok (tree, tree.size)
      else .error (.tooComplex maxNesting) := by
  obtain ⟨first, rest, hfirst, -, hfinish⟩ := exists_first_token hfinite
  have hstart : atEnd tokens = false := by
    rw [Bool.eq_false_iff, ne_eq, atEnd_iff, hvalues, hfirst]
    simp [hfinish]
  have hafter : ([Token.finish] = []) ∨ ∃ rest, [Token.finish] = .finish :: rest := .inr ⟨[], rfl⟩
  have hread : Reread ⟨tree.size, (tokens.getLast?.map (·.position)).getD 0⟩ .sum maxNesting
      (formula _) tree := (rereadOperand _ hfinite).sumAt (by decide)
  have houtcome := @hread (fun limit => limit = maxNesting ∧ maxNesting < tree.depth) ⟨tokens, 0⟩ _
    hvalues trivial (Nat.le_of_eq (Nat.zero_add _)) fun hlt => ⟨rfl, hlt⟩
  obtain ⟨hparse, hdepth⟩ | ⟨limit, hparse, rfl, hdepth⟩ :=
    parse_of_outcome hstart hafter houtcome
  · rw [hparse, if_pos hdepth]
  · rw [hparse, if_neg (Nat.not_le.mpr hdepth)]

end Parser

/-! ### Main statement -/

theorem compileWith_render_eq {tree : Expr} (hfinite : tree.Finite) :
    compileWith tree.render tree.size =
      if tree.depth ≤ Parser.maxNesting then .ok ⟨tree.render, tree, tree.size⟩
      else .error (.rejected (.tooComplex Parser.maxNesting)) := by
  obtain ⟨readings, htokens, hvalues⟩ := tokenize_render hfinite
  have hall : (readings ++ [(⟨.finish, tree.render.length⟩ : Placed Token)]).map (·.value) =
      tree.tokens ++ [.finish] := by
    rw [List.map_append, hvalues]
    rfl
  rw [compileWith, htokens]
  show (Program.ofTokens tree.render _ tree.size).mapError _ = _
  rw [Program.ofTokens, Parser.parse_of_tokens hfinite hall]
  split <;> rfl

/--
Reading undoes writing. A tree of finite literals is compiled from its text to the same tree, the
signs of its zeros included, or its text is nested too much, which needs a height beyond 128.
-/
theorem compileWith_render {tree : Expr} (hfinite : tree.Finite) :
    ((∃ program, compileWith tree.render tree.size = .ok program ∧ program.root = tree ∧
        program.nodeCount = tree.size) ∨
      compileWith tree.render tree.size = .error (.rejected (.tooComplex Parser.maxNesting))) ∧
    (tree.height ≤ 128 →
      compileWith tree.render tree.size ≠ .error (.rejected (.tooComplex Parser.maxNesting))) := by
  rw [compileWith_render_eq hfinite]
  have hdepth := tree.depth_lt
  have hlimit : Parser.maxNesting = 256 := rfl
  split
  · exact ⟨.inl ⟨_, rfl, rfl, rfl⟩, fun _ => by simp⟩
  · exact ⟨.inr rfl, fun hheight => by omega⟩

def negativeLiterals : Expr := .binary .pow (.call .sin (.literal (-0))) (.literal (-2))

theorem compileWith_render_negativeLiterals :
    negativeLiterals.Finite ∧ negativeLiterals.render = "(sin(-0) ** -2)" ∧
      ∃ program, compileWith negativeLiterals.render negativeLiterals.size = .ok program ∧
        program.root = negativeLiterals ∧ program.nodeCount = 4 := by
  have hfinite : negativeLiterals.Finite := by decide
  refine ⟨hfinite, by decide +kernel, ?_⟩
  obtain ⟨hread | hdeep, hlow⟩ := compileWith_render hfinite
  · exact hread
  · exact absurd hdeep (hlow (by decide))

end Waveform.Formula
