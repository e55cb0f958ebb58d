import Waveform.Proofs.Formula.Reading

/-!
# How reading a part ends

In front of tokens that spell a part of a formula, a rule of the parser either reads that part,
all of it and nothing more, or is stopped by a limit. Each lemma here says this of one rule,
given the same of the rules that it is built from; none of them mentions a derivation, so they
serve every proof that knows the tokens in front of the parser.

Which limits may stop the reading is left open as a predicate `excess`. Whoever composes the
lemmas shows, for each limit that a rule checks, that going beyond it is an excess.
-/

namespace Waveform.Formula.Parser

/-- A step has read `tree` and stands before the tokens `after`. -/
structure Arrives {start : Cursor} (step : Step start) (tree : Expr) (after : List Token) :
    Prop where
  tree_eq : step.tree = tree
  height_eq : step.height = tree.height
  values_eq : step.next.values = after
  nodes_eq : step.next.nodes = start.nodes + tree.size

/-- A tree of some nesting is read within its levels, or a limit in excess stops the reading. -/
def Outcome (excess : Nat → Prop) (levels : Nat) (tree : Expr) (nesting : Nat)
    (after : List Token) {start : Cursor} (result : Except ParseError (Step start)) : Prop :=
  (∃ step, result = .ok step ∧ Arrives step tree after ∧ nesting ≤ levels) ∨
    ∃ limit, result = .error (.tooComplex limit) ∧ excess limit

variable {excess : Nat → Prop} {setting : Setting} {levels nesting : Nat} {tree : Expr}
  {tokens after : List Token} {group exponent item : Rule} {start : Cursor}

namespace Outcome

theorem of_ok {step : Step start} (harrives : Arrives step tree after)
    (hnesting : nesting ≤ levels) : Outcome excess levels tree nesting after (.ok step) :=
  .inl ⟨step, rfl, harrives, hnesting⟩

theorem of_excess {limit : Nat} (h : excess limit) :
    Outcome excess levels tree nesting after
      (.error (.tooComplex limit) : Except ParseError (Step start)) :=
  .inr ⟨limit, rfl, h⟩

theorem bind {levels' nesting' : Nat} {tree' : Expr} {after' : List Token} {start' : Cursor}
    {result : Except ParseError (Step start)}
    {next : Step start → Except ParseError (Step start')}
    (h : Outcome excess levels tree nesting after result)
    (hnext : ∀ step, Arrives step tree after → nesting ≤ levels →
      Outcome excess levels' tree' nesting' after' (next step)) :
    Outcome excess levels' tree' nesting' after' (result >>= next) := by
  obtain ⟨step, rfl, harrives, hnesting⟩ | ⟨limit, rfl, hlimit⟩ := h
  · exact hnext step harrives hnesting
  · exact of_excess hlimit

theorem count {nodes : Nat} {next : Nat → Except ParseError (Step start)}
    (hexcess : setting.maxNodes < nodes + 1 → excess setting.maxNodes)
    (hnext : Outcome excess levels tree nesting after (next (nodes + 1))) :
    Outcome excess levels tree nesting after (setting.count nodes >>= next) := by
  rw [Setting.count]
  split
  · exact hnext
  · exact of_excess (hexcess (by omega))

theorem heightAbove {height : Nat} {next : Nat → Except ParseError (Step start)}
    (hexcess : maxHeight < height + 1 → excess maxHeight)
    (hnext : Outcome excess levels tree nesting after (next (height + 1))) :
    Outcome excess levels tree nesting after (heightAbove height >>= next) := by
  rw [Parser.heightAbove]
  split
  · exact hnext
  · exact of_excess (hexcess (by omega))

end Outcome

/-! ### The next token -/

theorem Cursor.rest_of_values {cursor : Cursor} {token : Token}
    (h : cursor.values = token :: after) :
    ∃ position rest, cursor.rest = ⟨token, position⟩ :: rest ∧ rest.map (·.value) = after := by
  obtain ⟨⟨value, position⟩, rest, hrest, rfl, hafter⟩ := List.map_eq_cons_iff.1 h
  exact ⟨position, rest, hrest, hafter⟩

theorem operand_eq_primary (h : ∀ rest, start.values ≠ .operator .sub :: rest) :
    operand setting group start = primary setting group start := by
  rw [operand]
  split
  · next hstart => exact absurd (Cursor.values_cons hstart) (h _)
  · rfl

theorem joinFrom_of_stops {level : Level} {left : Step start}
    (h : (Category.joined level).Stops left.next.values) :
    joinFrom setting level.fits item left = .ok left := by
  rw [joinFrom]
  split
  · next hrest =>
    split
    · next hfits =>
      rw [Cursor.values_cons hrest] at h
      exact absurd h (Category.not_stops_of_fits hfits _)
    · rfl
  · rfl

/-! ### Primaries -/

theorem Outcome.leaf {rest : List (Placed Token)} {shorter : rest.length < start.rest.length}
    (hafter : rest.map (·.value) = after) (hsize : tree.size = 1) (hheight : tree.height = 1)
    (hnodes : setting.maxNodes < start.nodes + 1 → excess setting.maxNodes) :
    Outcome excess (levels + 1) tree 1 after (leaf setting tree start rest shorter) :=
  .count hnodes (.of_ok ⟨rfl, hheight.symm, hafter, by rw [hsize]⟩ (by omega))

theorem Outcome.number {value : Float} (hstart : start.values = .number value :: after)
    (hnodes : setting.maxNodes < start.nodes + 1 → excess setting.maxNodes) :
    Outcome excess (levels + 1) (.literal value) 1 after (primary setting group start) := by
  obtain ⟨all, nodes⟩ := start
  obtain ⟨position, rest, rfl, hafter⟩ := Cursor.rest_of_values hstart
  exact .leaf hafter rfl rfl hnodes

theorem primary_of_name {name : String} {position : Nat} {rest : List (Placed Token)}
    (hstart : start.rest = ⟨.name name, position⟩ :: rest)
    (hafter : Category.primary.Stops (rest.map (·.value))) :
    primary setting group start =
      named setting name start rest (Cursor.shorter_of_cons hstart) := by
  obtain ⟨all, nodes⟩ := start
  cases hstart
  cases rest with
  | nil => rfl
  | cons token rest =>
    obtain ⟨value, position'⟩ := token
    cases value with
    | openParen => cases hafter
    | _ => rfl

theorem Outcome.time (hstart : start.values = .name timeName :: after)
    (hafter : Category.primary.Stops after)
    (hnodes : setting.maxNodes < start.nodes + 1 → excess setting.maxNodes) :
    Outcome excess (levels + 1) .time 1 after (primary setting group start) := by
  obtain ⟨position, rest, hrest, rfl⟩ := Cursor.rest_of_values hstart
  rw [primary_of_name hrest hafter, named, if_pos rfl]
  exact .leaf rfl rfl rfl hnodes

theorem Outcome.constant {constant : Constant}
    (hstart : start.values = .name constant.name :: after)
    (hafter : Category.primary.Stops after)
    (hnodes : setting.maxNodes < start.nodes + 1 → excess setting.maxNodes) :
    Outcome excess (levels + 1) (.literal constant.value) 1 after
      (primary setting group start) := by
  obtain ⟨position, rest, hrest, rfl⟩ := Cursor.rest_of_values hstart
  rw [primary_of_name hrest hafter, named, if_neg (timeName_ne_constant constant).symm]
  simp only [Constant.ofName?_name]
  exact .leaf rfl rfl rfl hnodes

theorem Outcome.grouped {inner : List Token}
    (hstart : start.values = .openParen :: (inner ++ .closeParen :: after))
    (hgroup : ∀ start' : Cursor, start'.values = inner ++ .closeParen :: after →
      start'.nodes = start.nodes →
      Outcome excess levels tree nesting (.closeParen :: after) (group start')) :
    Outcome excess (levels + 1) tree (nesting + 1) after (primary setting group start) := by
  obtain ⟨all, nodes⟩ := start
  obtain ⟨position, rest, rfl, hvalues⟩ := Cursor.rest_of_values hstart
  refine (hgroup ⟨rest, nodes⟩ hvalues rfl).bind fun step harrives hnesting => ?_
  obtain ⟨position', rest', hrest', hafter⟩ := Cursor.rest_of_values harrives.values_eq
  split
  · next hnext =>
    rw [hrest'] at hnext
    cases hnext
    exact .of_ok ⟨harrives.tree_eq, harrives.height_eq, hafter, harrives.nodes_eq⟩ (by omega)
  · next hnext => exact absurd hrest' (hnext _ _)

theorem Outcome.arguments {name : String} {tree' : Expr} {nesting' : Nat}
    {after' : List Token} {levels' : Nat} {start' : Cursor}
    {next : Arguments start → Except ParseError (Step start')}
    (hclose : ∀ rest, start.values ≠ .closeParen :: rest)
    (hgroup : Outcome excess levels tree nesting (.closeParen :: after) (group start))
    (hnext : ∀ read : Arguments start, nesting ≤ levels → read.trees = [(tree, tree.height)] →
      read.next.values = after → read.next.nodes = start.nodes + tree.size →
      Outcome excess levels' tree' nesting' after' (next read)) :
    Outcome excess levels' tree' nesting' after'
      (argumentList setting group name start >>= next) := by
  rw [argumentList]
  split
  · next hrest => exact absurd (Cursor.values_cons hrest) (hclose _)
  · rw [Parser.arguments, bind_assoc]
    refine hgroup.bind fun step harrives hnesting => ?_
    obtain ⟨position, rest, hrest, hafter⟩ := Cursor.rest_of_values harrives.values_eq
    split
    · next hcomma => simp [hrest] at hcomma
    · next hnext' =>
      rw [hrest] at hnext'
      cases hnext'
      refine hnext _ hnesting ?_ hafter harrives.nodes_eq
      rw [harrives.tree_eq, harrives.height_eq]
    · next hnone => exact absurd hrest (hnone _ _)

theorem Outcome.called {function : Elementary} {argument : List Token}
    (hstart : start.values =
      .name function.name :: .openParen :: (argument ++ .closeParen :: after))
    (hclose : ∀ rest, argument ++ .closeParen :: after ≠ .closeParen :: rest)
    (hgroup : ∀ start' : Cursor, start'.values = argument ++ .closeParen :: after →
      start'.nodes = start.nodes →
      Outcome excess levels tree nesting (.closeParen :: after) (group start'))
    (hnodes : setting.maxNodes < start.nodes + (tree.size + 1) → excess setting.maxNodes)
    (hheight : nesting ≤ levels → maxHeight < tree.height + 1 → excess maxHeight) :
    Outcome excess (levels + 1) (.call function tree) (nesting + 1) after
      (primary setting group start) := by
  obtain ⟨all, nodes⟩ := start
  obtain ⟨position, rest, rfl, hvalues⟩ := Cursor.rest_of_values hstart
  obtain ⟨⟨_, position'⟩, rest', rfl, rfl, hargument⟩ := List.map_eq_cons_iff.1 hvalues
  change Outcome _ _ _ _ _ (Parser.call setting group function.name ⟨rest', nodes⟩ >>= _)
  rw [Parser.call]
  simp only [Elementary.ofName?_name, bind_assoc]
  have hstart' : (⟨rest', nodes⟩ : Cursor).values = argument ++ .closeParen :: after := hargument
  refine .arguments (hstart' ▸ hclose) (hgroup _ hstart' rfl)
    fun read hnesting htrees hafter hread => ?_
  have hcount : read.next.nodes + 1 = nodes + (tree.size + 1) := by
    rw [hread]
    rfl
  simp only [htrees, bind_assoc]
  refine .count (by rwa [hcount]) (.heightAbove (hheight hnesting) ?_)
  exact .of_ok ⟨rfl, rfl, hafter, hcount⟩ (by omega)

/-! ### Operators -/

theorem Outcome.negative (hstart : start.values = .operator .sub :: (tokens ++ after))
    (hprimary : ∀ start' : Cursor, start'.values = tokens ++ after → start'.nodes = start.nodes →
      Outcome excess levels tree nesting after (primary setting group start'))
    (hnodes : setting.maxNodes < start.nodes + tree.negated.size → excess setting.maxNodes)
    (hheight : nesting ≤ levels → maxHeight < tree.negated.height → excess maxHeight) :
    Outcome excess levels tree.negated nesting after (operand setting group start) := by
  obtain ⟨all, nodes⟩ := start
  obtain ⟨position, rest, rfl, hvalues⟩ := Cursor.rest_of_values hstart
  refine (hprimary ⟨rest, nodes⟩ hvalues rfl).bind fun step harrives hnesting => ?_
  have hread : step.next.nodes = nodes + tree.size := harrives.nodes_eq
  rw [harrives.tree_eq]
  have hsize := size_negated tree
  have hnegated := height_negated tree
  split
  · next hliteral =>
    rw [if_pos hliteral] at hsize hnegated
    exact .of_ok ⟨rfl, harrives.height_eq.trans hnegated.symm, harrives.values_eq,
      hread.trans (congrArg _ hsize.symm)⟩ hnesting
  · next hliteral =>
    rw [if_neg hliteral] at hsize hnegated
    have hcount : step.next.nodes + 1 + 1 = nodes + tree.negated.size := by omega
    have habove : max 1 step.height + 1 = tree.negated.height := by
      rw [harrives.height_eq, hnegated]
    have hnodes : setting.maxNodes < nodes + tree.negated.size → excess setting.maxNodes := hnodes
    refine .count (fun hlt => hnodes (by omega)) (.count (by rwa [hcount]) (.heightAbove ?_ ?_))
    · rw [habove]
      exact hheight hnesting
    · exact .of_ok ⟨rfl, habove, harrives.values_eq, hcount⟩ hnesting

theorem Outcome.single (hafter : Category.power.Stops after)
    (hoperand : Outcome excess levels tree nesting after (operand setting group start)) :
    Outcome excess levels tree nesting after (powerOf setting group exponent start) := by
  refine hoperand.bind fun step harrives hnesting => ?_
  split
  · next hrest =>
    rw [← harrives.values_eq, Cursor.values_cons hrest] at hafter
    cases hafter
  · exact .of_ok harrives hnesting

theorem Outcome.raised {left right : Expr} {m n : Nat} (exponentTokens : List Token)
    (hbase : Outcome excess (levels + 1) left m (.operator .pow :: (exponentTokens ++ after))
      (operand setting group start))
    (hexponent : ∀ start' : Cursor, start'.values = exponentTokens ++ after →
      start'.nodes = start.nodes + left.size →
      Outcome excess levels right n after (exponent start'))
    (hnodes : setting.maxNodes < start.nodes + (Expr.binary .pow left right).size →
      excess setting.maxNodes)
    (hheight : max m (n + 1) ≤ levels + 1 → maxHeight < (Expr.binary .pow left right).height →
      excess maxHeight) :
    Outcome excess (levels + 1) (.binary .pow left right) (max m (n + 1)) after
      (powerOf setting group exponent start) := by
  refine hbase.bind fun base hleft hm => ?_
  obtain ⟨position, rest, hrest, hvalues⟩ := Cursor.rest_of_values hleft.values_eq
  split
  · next hnext =>
    rw [hrest] at hnext
    cases hnext
    have houtcome := hexponent ⟨rest, base.next.nodes⟩ hvalues hleft.nodes_eq
    refine houtcome.bind fun raised hright hn => ?_
    have hcount : raised.next.nodes + 1 = start.nodes + (Expr.binary .pow left right).size := by
      have hread : raised.next.nodes = base.next.nodes + right.size := hright.nodes_eq
      have hread' := hleft.nodes_eq
      rw [Expr.size]
      omega
    have habove : max base.height raised.height + 1 = (Expr.binary .pow left right).height := by
      rw [hleft.height_eq, hright.height_eq, Expr.height]
    refine .count (by rwa [hcount]) (.heightAbove ?_ ?_)
    · rw [habove]
      exact hheight (by omega)
    · refine .of_ok ⟨?_, habove, hright.values_eq, hcount⟩ (by omega)
      rw [hleft.tree_eq, hright.tree_eq]
  · next hnext => exact absurd hrest (hnext _ _)

/-- One more operand joined to what has been read, and then whatever follows. -/
theorem Outcome.join {level : Level} {left : Step start} {joint : Joint} {l : Expr}
    {nesting' : Nat} {tree' : Expr} {after' : List Token}
    (hleft : Arrives left l (joint.spelling ++ after))
    (hfits : level.fits joint.operator = true)
    (hitem : ∀ start' : Cursor, start'.values = joint.tokens ++ after →
      start'.nodes = start.nodes + l.size →
      Outcome excess levels joint.tree joint.nesting after (item start'))
    (hnodes : setting.maxNodes < start.nodes + (joint.join l).size → excess setting.maxNodes)
    (hheight : joint.nesting ≤ levels → maxHeight < (joint.join l).height → excess maxHeight)
    (hnext : ∀ left' : Step start, Arrives left' (joint.join l) after → joint.nesting ≤ levels →
      Outcome excess levels tree' nesting' after' (joinFrom setting level.fits item left')) :
    Outcome excess levels tree' nesting' after' (joinFrom setting level.fits item left) := by
  obtain ⟨position, rest, hrest, hvalues⟩ := Cursor.rest_of_values hleft.values_eq
  rw [joinFrom]
  split
  · next hstep =>
    rw [hrest] at hstep
    cases hstep
    rw [if_pos hfits]
    have houtcome := hitem ⟨rest, left.next.nodes⟩ hvalues hleft.nodes_eq
    refine houtcome.bind fun right hright hnesting => ?_
    have hcount : right.next.nodes + 1 = start.nodes + (joint.join l).size := by
      have hread : right.next.nodes = left.next.nodes + joint.tree.size := hright.nodes_eq
      have hread' := hleft.nodes_eq
      rw [Joint.join, Expr.size]
      omega
    have habove : max left.height right.height + 1 = (joint.join l).height := by
      rw [hleft.height_eq, hright.height_eq, Joint.join, Expr.height]
    refine .count (by rwa [hcount]) (.heightAbove ?_ (hnext _ ⟨?_, habove, ?_, hcount⟩ hnesting))
    · rw [habove]
      exact hheight hnesting
    · rw [hleft.tree_eq, hright.tree_eq, Joint.join]
    · exact hright.values_eq
  · next hnone => exact absurd hrest (hnone _ _ _)

theorem Outcome.alone {level : Level} (hafter : (Category.joined level).Stops after)
    (hitem : Outcome excess levels tree nesting after (item start)) :
    Outcome excess levels tree nesting after (joined setting level.fits item start) := by
  refine hitem.bind fun left harrives hnesting => ?_
  rw [joinFrom_of_stops (harrives.values_eq ▸ hafter)]
  exact .of_ok harrives hnesting

end Waveform.Formula.Parser
