import Waveform.Formula.Program
import Waveform.Proofs.Formula.Outcome

/-!
# Which tokens are accepted

The parser against the grammar. In front of a derivation every rule reads exactly that derivation,
unless the tree has too many nodes, too much height or too much nesting. With the soundness of the
rules this settles which tokens are a formula, which tree they have, and which of them are refused
for a limit. Main statements: `ofTokens_accepts_grammar` and `ofTokens_enforces_limits`.
-/

namespace Waveform.Formula

namespace Parser

/-- A rule reads every derivation of its part, unless a limit is exceeded. -/
def Complete (setting : Setting) (category : Category) (levels : Nat) (rule : Rule) : Prop :=
  ∀ {tokens : List Token} {tree : Expr} {nesting : Nat}, Derives category tokens tree nesting →
    ∀ {excess : Nat → Prop} {start : Cursor} {after : List Token},
      start.values = tokens ++ after → category.Stops after →
      (setting.maxNodes < start.nodes + tree.size → excess setting.maxNodes) →
      (maxHeight < tree.height → excess maxHeight) → (levels < nesting → excess maxNesting) →
      Outcome excess levels tree nesting after (rule start)

variable {setting : Setting} {levels : Nat} {group exponent item : Rule}

theorem complete_tooDeep (category : Category) : Complete setting category 0 tooDeep :=
  fun h _ _ _ _ _ _ _ hnesting => .of_excess (hnesting h.nesting_pos)

theorem complete_primary (hgroup : Complete setting .sum levels group) :
    Complete setting .primary (levels + 1) (primary setting group) := by
  intro tokens tree nesting h excess start after hstart hafter hnodes hheight hnesting
  cases h with
  | number value => exact .number hstart hnodes
  | time => exact .time hstart hafter hnodes
  | constant constant => exact .constant hstart hafter hnodes
  | @call function argument tree nesting hargument =>
    simp only [List.cons_append, List.append_assoc, List.nil_append] at hstart
    rw [Expr.size] at hnodes
    rw [Expr.height] at hheight
    refine .called hstart (hargument.ne_closeParen _) (fun start' hstart' hnodes' => ?_) hnodes
      fun _ => hheight
    exact hgroup hargument hstart' trivial (fun hlt => hnodes (by omega))
      (fun hlt => hheight (by omega)) fun hlt => hnesting (by omega)
  | @group inner tree nesting hinner =>
    simp only [List.cons_append, List.append_assoc, List.nil_append] at hstart
    refine .grouped hstart fun start' hstart' hnodes' => ?_
    exact hgroup hinner hstart' trivial (fun hlt => hnodes (by omega)) hheight
      fun hlt => hnesting (by omega)

theorem complete_operand (hgroup : Complete setting .sum levels group) :
    Complete setting .operand (levels + 1) (operand setting group) := by
  intro tokens tree nesting h excess start after hstart hafter hnodes hheight hnesting
  obtain hprimary | ⟨inner, positive, hprimary, rfl, rfl⟩ := h.operand_cases
  · rw [operand_eq_primary fun rest => hstart ▸ hprimary.primary_ne_operator]
    exact complete_primary hgroup hprimary hstart hafter hnodes hheight hnesting
  · have hsize : positive.size ≤ positive.negated.size := by
      rw [size_negated]
      split <;> omega
    have hhigher : positive.height ≤ positive.negated.height := by
      rw [height_negated]
      split <;> omega
    refine .negative hstart (fun start' hstart' hnodes' => ?_) hnodes fun _ => hheight
    exact complete_primary hgroup hprimary hstart' hafter (fun hlt => hnodes (by omega))
      (fun hlt => hheight (by omega)) hnesting

theorem complete_powerOf (hgroup : Complete setting .sum levels group)
    (hexponent : Complete setting .power levels exponent) :
    Complete setting .power (levels + 1) (powerOf setting group exponent) := by
  intro tokens tree nesting h excess start after hstart hafter hnodes hheight hnesting
  cases h with
  | single hoperand =>
    exact .single hafter (complete_operand hgroup hoperand hstart hafter.operand_of_power hnodes
      hheight hnesting)
  | @raised base exponentTokens left right m n hbase hright =>
    rw [List.append_assoc, List.cons_append] at hstart
    have hsize : (Expr.binary .pow left right).size = left.size + right.size + 1 := rfl
    have hhigher : (Expr.binary .pow left right).height = max left.height right.height + 1 := rfl
    refine .raised exponentTokens ?_ (fun start' hstart' hnodes' => ?_) hnodes fun _ => hheight
    · exact complete_operand hgroup hbase hstart rfl (fun hlt => hnodes (by omega))
        (fun hlt => hheight (by omega)) fun hlt => hnesting (by omega)
    · exact hexponent hright hstart' hafter (fun hlt => hnodes (by omega))
        (fun hlt => hheight (by omega)) fun hlt => hnesting (by omega)

/-! ### Joined operands -/

theorem le_foldl_join (measure : Expr → Nat) {joints : List Joint} {left : Expr}
    (hjoin : ∀ (joint : Joint) (tree : Expr), measure tree ≤ measure (joint.join tree)) :
    measure left ≤ measure (joints.foldl Joint.join left) := by
  induction joints generalizing left with
  | nil => exact Nat.le_refl _
  | cons joint joints ih => exact Nat.le_trans (hjoin joint left) ih

theorem size_le_foldl_join (joints : List Joint) (left : Expr) :
    left.size ≤ (joints.foldl Joint.join left).size :=
  le_foldl_join Expr.size fun joint tree => by
    rw [Joint.join, Expr.size]
    omega

theorem height_le_foldl_join (joints : List Joint) (left : Expr) :
    left.height ≤ (joints.foldl Joint.join left).height :=
  le_foldl_join Expr.height fun joint tree => by
    rw [Joint.join, Expr.height]
    omega

theorem le_foldl_max (joints : List Joint) (nesting : Nat) :
    nesting ≤ joints.foldl (fun n joint => max n joint.nesting) nesting := by
  induction joints generalizing nesting with
  | nil => exact Nat.le_refl _
  | cons joint joints ih => exact Nat.le_trans (Nat.le_max_left _ _) (ih _)

theorem joinFrom_outcome {level : Level} (hitem : Complete setting level.operand levels item)
    {excess : Nat → Prop} {start : Cursor} {after : List Token} {joints : List Joint} {l : Expr}
    {nesting : Nat} {left : Step start}
    (hleft : Arrives left l (joints.flatMap Joint.spelling ++ after)) (hlevels : nesting ≤ levels)
    (hfits : ∀ joint ∈ joints, level.fits joint.operator = true)
    (hjoints : ∀ joint ∈ joints, Derives level.operand joint.tokens joint.tree joint.nesting)
    (hafter : (Category.joined level).Stops after)
    (hnodes : setting.maxNodes < start.nodes + (joints.foldl Joint.join l).size →
      excess setting.maxNodes)
    (hheight : maxHeight < (joints.foldl Joint.join l).height → excess maxHeight)
    (hnesting : levels < joints.foldl (fun n joint => max n joint.nesting) nesting →
      excess maxNesting) :
    Outcome excess levels (joints.foldl Joint.join l)
      (joints.foldl (fun n joint => max n joint.nesting) nesting) after
      (joinFrom setting level.fits item left) := by
  induction joints generalizing l nesting left with
  | nil =>
    rw [joinFrom_of_stops (hleft.values_eq ▸ hafter)]
    exact .of_ok hleft hlevels
  | cons joint joints ih =>
    rw [List.flatMap_cons, List.append_assoc] at hleft
    rw [List.foldl_cons] at hnodes hheight hnesting ⊢
    have hsize := size_le_foldl_join joints (joint.join l)
    have hhigher := height_le_foldl_join joints (joint.join l)
    have hdeeper := le_foldl_max joints (max nesting joint.nesting)
    have hsize' : (joint.join l).size = l.size + joint.tree.size + 1 := rfl
    have hhigher' : (joint.join l).height = max l.height joint.tree.height + 1 := rfl
    have hfits' := fun joint hmem => hfits joint (List.mem_cons_of_mem _ hmem)
    refine .join hleft (hfits joint List.mem_cons_self) (fun start' hstart' hnodes' => ?_)
      (fun hlt => hnodes (by omega)) (fun _ hlt => hheight (by omega))
      fun left' hleft' hjoint => ?_
    · exact hitem (hjoints joint List.mem_cons_self) hstart'
        (Category.stops_spelling hfits' hafter) (fun hlt => hnodes (by omega))
        (fun hlt => hheight (by omega)) fun hlt => hnesting (by omega)
    · exact ih hleft' (Nat.max_le.2 ⟨hlevels, hjoint⟩) hfits'
        (fun joint hmem => hjoints joint (List.mem_cons_of_mem _ hmem)) hnodes hheight hnesting

theorem complete_joined (level : Level) (hitem : Complete setting level.operand levels item) :
    Complete setting (.joined level) levels (joined setting level.fits item) := by
  intro tokens tree nesting h excess start after hstart hafter hnodes hheight hnesting
  cases h with
  | @joined _ first left nesting joints hfirst hfits hjoints =>
    rw [List.append_assoc] at hstart
    have hsize := size_le_foldl_join joints left
    have hhigher := height_le_foldl_join joints left
    have hdeeper := le_foldl_max joints nesting
    have houtcome : Outcome excess levels left nesting _ (item start) := hitem hfirst hstart
      (Category.stops_spelling hfits hafter) (fun hlt => hnodes (by omega))
      (fun hlt => hheight (by omega)) fun hlt => hnesting (by omega)
    exact houtcome.bind fun step harrives hlevels =>
      joinFrom_outcome hitem harrives hlevels hfits hjoints hafter hnodes hheight hnesting

theorem complete_sumOf {power : Rule} (hpower : Complete setting .power levels power) :
    Complete setting .sum levels (sumOf setting power) :=
  complete_joined .additive (complete_joined .multiplicative hpower)

theorem complete_power (setting : Setting) (levels : Nat) :
    Complete setting .power (levels + 1) (power setting levels) := by
  induction levels with
  | zero => exact complete_powerOf (complete_tooDeep _) (complete_tooDeep _)
  | succ levels ih => exact complete_powerOf (complete_sumOf ih) ih

theorem complete_formula (setting : Setting) :
    Complete setting .sum maxNesting (formula setting) :=
  complete_sumOf (complete_power setting (maxNesting - 1))

/-! ### Whole formulas -/

/-- A limit of the parser that a tree goes beyond. -/
def Exceeds (maxNodes : Nat) (tree : Expr) (nesting limit : Nat) : Prop :=
  limit = maxNodes ∧ maxNodes < tree.size ∨ limit = maxHeight ∧ maxHeight < tree.height ∨
    limit = maxNesting ∧ maxNesting < nesting

/-- What follows the tokens of a formula: nothing, or its end. -/
theorem values_eq_formulaTokens (tokens : List (Placed Token)) :
    ∃ after, tokens.map (·.value) = formulaTokens tokens ++ after ∧
      (after = [] ∨ ∃ rest, after = .finish :: rest) := by
  refine ⟨(tokens.map (·.value)).dropWhile (· ≠ .finish),
    List.takeWhile_append_dropWhile.symm, ?_⟩
  cases hafter : (tokens.map (·.value)).dropWhile (· ≠ .finish) with
  | nil => exact .inl rfl
  | cons token rest =>
    have hhead := List.head?_dropWhile_not (· ≠ Token.finish) (tokens.map (·.value))
    rw [hafter] at hhead
    exact .inr ⟨rest, by simpa using hhead⟩

theorem atEnd_iff {tokens : List (Placed Token)} :
    atEnd tokens = true ↔
      tokens.map (·.value) = [] ∨ ∃ rest, tokens.map (·.value) = .finish :: rest := by
  unfold atEnd
  split
  · simp
  · simp
  · next hnil hfinish =>
    cases tokens with
    | nil => exact absurd rfl hnil
    | cons token tokens =>
      obtain ⟨value, position⟩ := token
      cases value with
      | finish => exact absurd rfl (hfinish _ _)
      | _ => simp

theorem formulaTokens_eq {tokens : List (Placed Token)} {words after : List Token}
    (hvalues : tokens.map (·.value) = words ++ after) (hwords : Token.finish ∉ words)
    (hafter : after = [] ∨ ∃ rest, after = .finish :: rest) : formulaTokens tokens = words := by
  have hall : ∀ token ∈ words, decide (token ≠ .finish) = true := by
    intro token hmem
    rw [decide_eq_true_iff]
    exact fun heq => hwords (heq ▸ hmem)
  rw [formulaTokens, hvalues, List.takeWhile_append_of_pos hall]
  obtain rfl | ⟨rest, rfl⟩ := hafter <;> simp

theorem parse_reads {tokens : List (Placed Token)} {maxNodes nodes : Nat} {root : Expr}
    (h : parse tokens maxNodes = .ok (root, nodes)) :
    (∃ nesting, Derives .sum (formulaTokens tokens) root nesting ∧ nesting ≤ maxNesting) ∧
      root.height ≤ maxHeight ∧ nodes = root.size ∧ nodes ≤ maxNodes := by
  rw [parse] at h
  split at h
  · exact absurd h throw_ne_ok
  obtain ⟨step, hstep, h⟩ := bind_eq_ok.1 h
  have hreads := sound_formula _ hstep
  obtain ⟨words, nesting, hvalues, hderives, hnesting⟩ := hreads.derives
  split at h
  · exact absurd h throw_ne_ok
  split at h
  · next hend =>
    cases pure_eq_ok.1 h
    rw [formulaTokens_eq hvalues hderives.finish_notMem (atEnd_iff.1 hend)]
    exact ⟨⟨nesting, hderives, hnesting⟩, hreads.height_eq ▸ hreads.height_le,
      by simpa using hreads.nodes_eq, hreads.nodes_le⟩
  · exact absurd h throw_ne_ok

theorem atEnd_eq_false {tokens : List (Placed Token)} (h : formulaTokens tokens ≠ []) :
    atEnd tokens = false := by
  cases hend : atEnd tokens with
  | false => rfl
  | true => exact absurd (formulaTokens_eq (List.nil_append _).symm (by simp) (atEnd_iff.1 hend)) h

theorem formula_of_derives (setting : Setting) {tokens : List (Placed Token)} {tree : Expr}
    {nesting : Nat} {after : List Token} (h : Derives .sum (formulaTokens tokens) tree nesting)
    (hvalues : tokens.map (·.value) = formulaTokens tokens ++ after)
    (hafter : after = [] ∨ ∃ rest, after = .finish :: rest) :
    Outcome (Exceeds setting.maxNodes tree nesting) maxNesting tree nesting after
      (formula setting ⟨tokens, 0⟩) := by
  have hstops : Category.sum.Stops after := by
    obtain rfl | ⟨rest, rfl⟩ := hafter <;> trivial
  refine complete_formula setting h hvalues hstops (fun hlt => .inl ⟨rfl, ?_⟩)
    (fun hlt => .inr (.inl ⟨rfl, hlt⟩)) fun hlt => .inr (.inr ⟨rfl, hlt⟩)
  rwa [Nat.zero_add] at hlt

theorem parse_of_outcome {excess : Nat → Prop} {tokens : List (Placed Token)} {tree : Expr}
    {maxNodes nesting : Nat} {after : List Token} (hstart : atEnd tokens = false)
    (hafter : after = [] ∨ ∃ rest, after = .finish :: rest)
    (h : Outcome excess maxNesting tree nesting after
      (formula ⟨maxNodes, (tokens.getLast?.map (·.position)).getD 0⟩ ⟨tokens, 0⟩)) :
    parse tokens maxNodes = .ok (tree, tree.size) ∧ nesting ≤ maxNesting ∨
      ∃ limit, parse tokens maxNodes = .error (.tooComplex limit) ∧ excess limit := by
  rw [parse]
  rw [if_neg (by simp [hstart])]
  obtain ⟨root, hroot, harrives, hnesting⟩ | ⟨limit, hlimit, hexcess⟩ := h
  · left
    have hend : atEnd root.next.rest = true := by
      rw [← harrives.values_eq] at hafter
      exact atEnd_iff.2 hafter
    have hnodes : root.next.nodes = tree.size := by simpa using harrives.nodes_eq
    refine ⟨?_, hnesting⟩
    rw [hroot]
    simp only [bind, Except.bind]
    split
    · next hclose =>
      rw [hclose] at hend
      cases hend
    · rw [if_pos hend, harrives.tree_eq, hnodes]
      rfl
  · right
    rw [hlimit]
    exact ⟨limit, rfl, hexcess⟩

theorem parse_of_derives {tokens : List (Placed Token)} {tree : Expr} {nesting : Nat}
    (maxNodes : Nat) (h : Derives .sum (formulaTokens tokens) tree nesting) :
    parse tokens maxNodes = .ok (tree, tree.size) ∨
      ∃ limit, parse tokens maxNodes = .error (.tooComplex limit) ∧
        Exceeds maxNodes tree nesting limit := by
  obtain ⟨after, hvalues, hafter⟩ := values_eq_formulaTokens tokens
  have houtcome := formula_of_derives
    ⟨maxNodes, (tokens.getLast?.map (·.position)).getD 0⟩ h hvalues hafter
  exact (parse_of_outcome (atEnd_eq_false h.tokens_ne_nil) hafter houtcome).imp_left And.left

end Parser

/-! ### Programs -/

namespace Program

theorem ofTokens_eq_ok {source : String} {tokens : List (Placed Token)} {maxNodes : Nat}
    {program : Program} :
    ofTokens source tokens maxNodes = .ok program ↔
      Parser.parse tokens maxNodes = .ok (program.root, program.nodeCount) ∧
        program.source = source := by
  obtain ⟨text, root, nodeCount⟩ := program
  rw [ofTokens]
  cases Parser.parse tokens maxNodes with
  | error fault => simp [bind, Except.bind]
  | ok read =>
    obtain ⟨tree, nodes⟩ := read
    simp [bind, Except.bind, pure, Except.pure]
    grind

theorem ofTokens_eq_error {source : String} {tokens : List (Placed Token)} {maxNodes : Nat}
    {fault : ParseError} :
    ofTokens source tokens maxNodes = .error fault ↔
      Parser.parse tokens maxNodes = .error fault := by
  rw [ofTokens]
  cases Parser.parse tokens maxNodes with
  | error fault' => simp [bind, Except.bind]
  | ok read => simp [bind, Except.bind, pure, Except.pure]

/--
The accepted tokens are those that the grammar derives, whenever no limit is in the way, and the
tree of a program is that of the only derivation there is.
-/
theorem ofTokens_accepts_grammar (source : String) (tokens : List (Placed Token))
    (maxNodes : Nat) :
    ((∀ limit, ofTokens source tokens maxNodes ≠ .error (.tooComplex limit)) →
      ((∃ program, ofTokens source tokens maxNodes = .ok program) ↔
        ∃ tree nesting, Derives .sum (formulaTokens tokens) tree nesting)) ∧
    (∀ program, ofTokens source tokens maxNodes = .ok program →
      ∃ nesting, Derives .sum (formulaTokens tokens) program.root nesting) ∧
    ∀ words tree tree' nesting nesting', Derives .sum words tree nesting →
      Derives .sum words tree' nesting' → tree = tree' ∧ nesting = nesting' := by
  have hsound : ∀ program, ofTokens source tokens maxNodes = .ok program →
      ∃ nesting, Derives .sum (formulaTokens tokens) program.root nesting := by
    intro program hprogram
    obtain ⟨⟨nesting, hderives, -⟩, -⟩ := Parser.parse_reads (ofTokens_eq_ok.1 hprogram).1
    exact ⟨nesting, hderives⟩
  refine ⟨fun hlimit => ⟨?_, ?_⟩, hsound, ?_⟩
  · rintro ⟨program, hprogram⟩
    exact ⟨program.root, hsound program hprogram⟩
  · rintro ⟨tree, nesting, hderives⟩
    obtain hread | ⟨limit, hstopped, -⟩ := Parser.parse_of_derives maxNodes hderives
    · exact ⟨⟨source, tree, tree.size⟩, ofTokens_eq_ok.2 ⟨hread, rfl⟩⟩
    · exact absurd (ofTokens_eq_error.2 hstopped) (hlimit limit)
  · intro words tree tree' nesting nesting' h h'
    exact h.tree_unique h'

/--
The limits are exact. Tokens that the grammar derives are accepted if and only if the tree has at
most `maxNodes` nodes, the greatest height at most, and the greatest nesting at most; otherwise the
error names a limit that the tree goes beyond.
-/
theorem ofTokens_enforces_limits (source : String) {tokens : List (Placed Token)} {tree : Expr}
    {nesting : Nat} (maxNodes : Nat) (h : Derives .sum (formulaTokens tokens) tree nesting) :
    ((∃ program, ofTokens source tokens maxNodes = .ok program) ↔
      tree.size ≤ maxNodes ∧ tree.height ≤ Parser.maxHeight ∧ nesting ≤ Parser.maxNesting) ∧
    (∀ program, ofTokens source tokens maxNodes = .ok program →
      program.root = tree ∧ program.nodeCount = program.root.size) ∧
    ((¬ ∃ program, ofTokens source tokens maxNodes = .ok program) →
      ∃ limit, ofTokens source tokens maxNodes = .error (.tooComplex limit) ∧
        Parser.Exceeds maxNodes tree nesting limit) := by
  have hread : ∀ program, ofTokens source tokens maxNodes = .ok program →
      (program.root = tree ∧ program.nodeCount = program.root.size) ∧
        tree.size ≤ maxNodes ∧ tree.height ≤ Parser.maxHeight ∧ nesting ≤ Parser.maxNesting := by
    intro program hprogram
    obtain ⟨⟨nesting', hderives, hnesting⟩, hheight, hcount, hnodes⟩ :=
      Parser.parse_reads (ofTokens_eq_ok.1 hprogram).1
    obtain ⟨rfl, rfl⟩ := h.tree_unique hderives
    exact ⟨⟨rfl, hcount⟩, hcount ▸ hnodes, hheight, hnesting⟩
  obtain hok | ⟨limit, hstopped, hexceeds⟩ := Parser.parse_of_derives maxNodes h
  · have hprogram : ofTokens source tokens maxNodes = .ok ⟨source, tree, tree.size⟩ :=
      ofTokens_eq_ok.2 ⟨hok, rfl⟩
    exact ⟨⟨fun _ => (hread _ hprogram).2, fun _ => ⟨_, hprogram⟩⟩,
      fun program hok => (hread program hok).1, fun hnone => absurd ⟨_, hprogram⟩ hnone⟩
  · have herror : ofTokens source tokens maxNodes = .error (.tooComplex limit) :=
      ofTokens_eq_error.2 hstopped
    refine ⟨⟨?_, fun hfits => ?_⟩, fun program hok => (hread program hok).1,
      fun _ => ⟨limit, herror, hexceeds⟩⟩
    · rintro ⟨program, hprogram⟩
      exact (hread program hprogram).2
    · unfold Parser.Exceeds at hexceeds
      omega

def minusPower : List (Placed Token) :=
  [⟨.number 2, 0⟩, ⟨.operator .pow, 1⟩, ⟨.operator .sub, 3⟩, ⟨.name timeName, 4⟩, ⟨.finish, 5⟩]

/-- `2**-t` has five nodes: it is accepted with that limit and refused with a lower one. -/
theorem ofTokens_enforces_limits_minusPower :
    Derives .sum (formulaTokens minusPower)
        (.binary .pow (.literal 2) (.binary .mul (.literal (-1)) .time)) 2 ∧
      (∃ program, ofTokens "2**-t" minusPower 5 = .ok program) ∧
      ¬ ∃ program, ofTokens "2**-t" minusPower 4 = .ok program := by
  have hpower : Derives .power [.number 2, .operator .pow, .operator .sub, .name timeName]
      (.binary .pow (.literal 2) (.binary .mul (.literal (-1)) .time)) 2 :=
    .raised (.plain (.number 2)) (.single (.negative .time (by simp)))
  have hwords : formulaTokens minusPower =
      [.number 2, .operator .pow, .operator .sub, .name timeName] := by
    simp [formulaTokens, minusPower]
  have h := hwords ▸ hpower.sum_of_power
  exact ⟨h, (ofTokens_enforces_limits "2**-t" 5 h).1.2 (by decide),
    fun hok => absurd ((ofTokens_enforces_limits "2**-t" 4 h).1.1 hok) (by decide)⟩

end Program

/-! ### Texts -/

theorem compileWith_of_tokenize {text : String} {tokens : List (Placed Token)}
    (htokens : tokenize text = .ok tokens) (maxNodes : Nat) :
    compileWith text maxNodes = (Program.ofTokens text tokens maxNodes).mapError .rejected := by
  rw [compileWith, htokens]

theorem compileWith_eq_ok {text : String} {maxNodes : Nat} {program : Program} :
    compileWith text maxNodes = .ok program ↔
      ∃ tokens, tokenize text = .ok tokens ∧
        Program.ofTokens text tokens maxNodes = .ok program := by
  rw [compileWith]
  split
  · next fault hfault => simp [hfault]
  · next tokens htokens =>
    cases hread : Program.ofTokens text tokens maxNodes with
    | error fault =>
      have hmapped : (Except.error fault : Except ParseError Program).mapError
          FormulaError.rejected = .error (.rejected fault) := rfl
      simp [htokens, hread, hmapped]
    | ok read =>
      have hmapped : (Except.ok read : Except ParseError Program).mapError
          FormulaError.rejected = .ok read := rfl
      simp [htokens, hread, hmapped]

end Waveform.Formula
