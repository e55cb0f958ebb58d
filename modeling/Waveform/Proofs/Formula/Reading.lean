import Waveform.Formula.Parser
import Waveform.Proofs.Formula.Grammar

/-!
# What a rule has read

A rule of the parser that succeeds has read a derivation of its part of the grammar, and its two
counters are those of the finished tree: the height that it reports is the height of the tree, and
the node count has grown by the size of the tree. Both stay within their limits.

The statements are about a rule with `levels` levels of nesting, the one that it opens itself
included. Each rule is sound if the rules that it is built from are, so the recursion of `power` on
its levels is the only induction about the whole parser. Main statement: `sound_formula`.
-/

namespace Waveform.Formula.Parser

/-! ### Sequences of readings -/

theorem bind_eq_ok {ε α β : Type} {first : Except ε α} {next : α → Except ε β} {result : β} :
    first >>= next = .ok result ↔ ∃ value, first = .ok value ∧ next value = .ok result := by
  cases first with
  | error fault => simp [bind, Except.bind]
  | ok value => simp [bind, Except.bind]

theorem bind_eq_error {ε α β : Type} {first : Except ε α} {next : α → Except ε β} {fault : ε} :
    first >>= next = .error fault ↔
      first = .error fault ∨ ∃ value, first = .ok value ∧ next value = .error fault := by
  cases first with
  | error fault => simp [bind, Except.bind]
  | ok value => simp [bind, Except.bind]

theorem pure_eq_ok {ε α : Type} {value result : α} :
    (pure value : Except ε α) = .ok result ↔ value = result := by
  simp [pure, Except.pure]

theorem throw_ne_ok {ε α : Type} {fault : ε} {result : α} :
    (throw fault : Except ε α) ≠ .ok result := by
  simp [throw, throwThe, MonadExceptOf.throw]

/-! ### The limits -/

theorem count_eq_ok {setting : Setting} {nodes counted : Nat} :
    setting.count nodes = .ok counted ↔ nodes < setting.maxNodes ∧ counted = nodes + 1 := by
  rw [Setting.count]
  split
  · next hlt => simp [hlt, eq_comm]
  · next hle => simp [hle]

theorem heightAbove_eq_ok {height above : Nat} :
    heightAbove height = .ok above ↔ height < maxHeight ∧ above = height + 1 := by
  rw [heightAbove]
  split
  · next hlt => simp [hlt, eq_comm]
  · next hle => simp [hle]

/-! ### The negative of a tree -/

theorem size_negated (tree : Expr) :
    tree.negated.size = if tree.isLiteral then tree.size else tree.size + 2 := by
  cases tree <;> simp +arith [Expr.negated, Expr.size, Expr.isLiteral]

theorem height_negated (tree : Expr) :
    tree.negated.height = if tree.isLiteral then tree.height else max 1 tree.height + 1 := by
  cases tree <;> simp [Expr.negated, Expr.height, Expr.isLiteral]

/-! ### What has been read -/

def Cursor.values (cursor : Cursor) : List Token := cursor.rest.map (·.value)

theorem Cursor.values_cons {cursor : Cursor} {token : Placed Token} {rest : List (Placed Token)}
    (hrest : cursor.rest = token :: rest) : cursor.values = token.value :: rest.map (·.value) := by
  rw [values, hrest, List.map_cons]

/-- A step has read a derivation, and its counters are those of the tree. -/
structure Reads (setting : Setting) (category : Category) (levels : Nat) {start : Cursor}
    (step : Step start) : Prop where
  derives : ∃ tokens nesting, start.values = tokens ++ step.next.values ∧
    Derives category tokens step.tree nesting ∧ nesting ≤ levels
  height_eq : step.height = step.tree.height
  height_le : step.height ≤ maxHeight
  nodes_eq : step.next.nodes = start.nodes + step.tree.size
  nodes_le : step.next.nodes ≤ setting.maxNodes

/-- Whatever a rule returns is a reading of its part of the grammar. -/
def Sound (setting : Setting) (category : Category) (levels : Nat) (rule : Rule) : Prop :=
  ∀ {start : Cursor} {step : Step start}, rule start = .ok step →
    Reads setting category levels step

variable {setting : Setting} {levels : Nat} {group exponent item : Rule}

theorem sound_tooDeep (category : Category) : Sound setting category 0 tooDeep := by
  intro start step h
  cases h

/-! ### Primaries -/

theorem leaf_reads {tree : Expr} {start : Cursor} {rest : List (Placed Token)}
    {shorter : rest.length < start.rest.length} {step : Step start} {tokens : List Token}
    (h : leaf setting tree start rest shorter = .ok step)
    (hstart : start.values = tokens ++ rest.map (·.value))
    (hderives : Derives .primary tokens tree 1)
    (hsize : tree.size = 1) (hheight : tree.height = 1) :
    Reads setting .primary (levels + 1) step := by
  obtain ⟨nodes, hnodes, hstep⟩ := bind_eq_ok.1 h
  obtain ⟨hlt, rfl⟩ := count_eq_ok.1 hnodes
  obtain rfl := pure_eq_ok.1 hstep
  exact {
    derives := ⟨tokens, 1, hstart, hderives, by omega⟩
    height_eq := hheight.symm
    height_le := (by decide : 1 ≤ maxHeight)
    nodes_eq := by rw [hsize]
    nodes_le := hlt }

theorem named_reads {name : String} {start : Cursor} {rest : List (Placed Token)}
    {shorter : rest.length < start.rest.length} {step : Step start}
    (h : named setting name start rest shorter = .ok step)
    (hstart : start.values = .name name :: rest.map (·.value)) :
    Reads setting .primary (levels + 1) step := by
  rw [named] at h
  split at h
  · next hname =>
    subst hname
    exact leaf_reads h hstart .time rfl rfl
  · split at h
    · next constant hconstant =>
      obtain rfl := Constant.name_of_ofName? hconstant
      exact leaf_reads h hstart (.constant constant) rfl rfl
    · split at h <;> cases h

theorem arguments_ne_nil {name : String} {start : Cursor} {read : Arguments start}
    (h : arguments setting group name start = .ok read) : read.trees ≠ [] := by
  rw [arguments] at h
  obtain ⟨argument, -, h⟩ := bind_eq_ok.1 h
  split at h
  · obtain ⟨others, -, h⟩ := bind_eq_ok.1 h
    obtain rfl := pure_eq_ok.1 h
    simp
  · obtain rfl := pure_eq_ok.1 h
    simp
  · exact absurd h throw_ne_ok

theorem argumentList_eq_single {name : String} {start : Cursor} {read : Arguments start}
    {tree : Expr} {height : Nat} (h : argumentList setting group name start = .ok read)
    (hsingle : read.trees = [(tree, height)]) :
    ∃ argument : Step start, group start = .ok argument ∧ argument.tree = tree ∧
      argument.height = height ∧ argument.next.nodes = read.next.nodes ∧
      argument.next.values = .closeParen :: read.next.values := by
  rw [argumentList] at h
  split at h
  · cases h
    simp at hsingle
  · rw [arguments] at h
    obtain ⟨argument, hargument, h⟩ := bind_eq_ok.1 h
    split at h
    · obtain ⟨others, hothers, h⟩ := bind_eq_ok.1 h
      obtain rfl := pure_eq_ok.1 h
      rw [List.cons.injEq] at hsingle
      exact absurd hsingle.2 (arguments_ne_nil hothers)
    · next hrest =>
      obtain rfl := pure_eq_ok.1 h
      simp only [List.cons.injEq, Prod.mk.injEq, and_true] at hsingle
      exact ⟨argument, hargument, hsingle.1, hsingle.2, rfl, Cursor.values_cons hrest⟩
    · exact absurd h throw_ne_ok

theorem call_reads (hgroup : Sound setting .sum levels group) {name : String} {start : Cursor}
    {step : Step start} (h : call setting group name start = .ok step) :
    ∃ tokens nesting, .name name :: .openParen :: start.values = tokens ++ step.next.values ∧
      Derives .primary tokens step.tree nesting ∧ nesting ≤ levels + 1 ∧
      step.height = step.tree.height ∧ step.height ≤ maxHeight ∧
      step.next.nodes = start.nodes + step.tree.size ∧ step.next.nodes ≤ setting.maxNodes := by
  rw [call] at h
  split at h
  · cases h
  · next function hfunction =>
    have hname := Elementary.name_of_ofName? hfunction
    obtain ⟨read, hread, h⟩ := bind_eq_ok.1 h
    split at h
    · next tree height htrees =>
      obtain ⟨nodes, hcount, h⟩ := bind_eq_ok.1 h
      obtain ⟨above, habove, h⟩ := bind_eq_ok.1 h
      obtain rfl := pure_eq_ok.1 h
      obtain ⟨hlimit, rfl⟩ := count_eq_ok.1 hcount
      obtain ⟨hheight, rfl⟩ := heightAbove_eq_ok.1 habove
      obtain ⟨argument, hargument, rfl, rfl, hnext, hvalues⟩ := argumentList_eq_single hread htrees
      have hreads := hgroup hargument
      obtain ⟨tokens, nesting, hstart, hderives, hnesting⟩ := hreads.derives
      refine ⟨_, _, ?_, .call function hderives, by omega, ?_, hheight, ?_, hlimit⟩
      · rw [hstart, hvalues, hname]
        simp [Cursor.values]
      · rw [Expr.height, hreads.height_eq]
      · have hnodes := hreads.nodes_eq
        change read.next.nodes + 1 = start.nodes + (argument.tree.size + 1)
        omega
    · exact absurd h throw_ne_ok

theorem sound_primary (hgroup : Sound setting .sum levels group) :
    Sound setting .primary (levels + 1) (primary setting group) := by
  intro start step h
  rw [primary] at h
  split at h
  · next hstart => exact leaf_reads h (Cursor.values_cons hstart) (.number _) rfl rfl
  · next hstart =>
    obtain ⟨inner, hinner, h⟩ := bind_eq_ok.1 h
    have hreads := hgroup hinner
    obtain ⟨tokens, nesting, hvalues, hderives, hnesting⟩ := hreads.derives
    split at h
    · next hnext =>
      obtain rfl := pure_eq_ok.1 h
      refine ⟨⟨_, _, ?_, .group hderives, by omega⟩, hreads.height_eq, hreads.height_le,
        hreads.nodes_eq, hreads.nodes_le⟩
      rw [Cursor.values_cons hnext] at hvalues
      rw [Cursor.values_cons hstart]
      simpa [Cursor.values] using hvalues
    · exact absurd h throw_ne_ok
  · next hstart =>
    obtain ⟨called, hcalled, h⟩ := bind_eq_ok.1 h
    obtain rfl := pure_eq_ok.1 h
    obtain ⟨tokens, nesting, hvalues, hderives, hnesting, hheight, hle, hnodes, hmax⟩ :=
      call_reads hgroup hcalled
    refine ⟨⟨tokens, nesting, ?_, hderives, hnesting⟩, hheight, hle, hnodes, hmax⟩
    rw [Cursor.values_cons hstart]
    exact hvalues
  · next hstart => exact named_reads h (Cursor.values_cons hstart)
  all_goals cases h

/-! ### Operators -/

theorem sound_operand (hgroup : Sound setting .sum levels group) :
    Sound setting .operand (levels + 1) (operand setting group) := by
  intro start step h
  rw [operand] at h
  split at h
  · next hstart =>
    obtain ⟨inner, hinner, h⟩ := bind_eq_ok.1 h
    have hreads := sound_primary hgroup hinner
    obtain ⟨tokens, nesting, hvalues, hderives, hnesting⟩ := hreads.derives
    have hnegative : start.values = (.operator .sub :: tokens) ++ inner.next.values := by
      rw [Cursor.values_cons hstart, List.cons_append, ← hvalues]
      rfl
    split at h
    · next hliteral =>
      obtain rfl := pure_eq_ok.1 h
      refine ⟨⟨_, _, hnegative, hderives.negated, hnesting⟩, ?_, hreads.height_le, ?_,
        hreads.nodes_le⟩
      · rw [height_negated, if_pos hliteral, hreads.height_eq]
      · rw [size_negated, if_pos hliteral, hreads.nodes_eq]
    · next hliteral =>
      obtain ⟨first, hfirst, h⟩ := bind_eq_ok.1 h
      obtain ⟨second, hsecond, h⟩ := bind_eq_ok.1 h
      obtain ⟨above, habove, h⟩ := bind_eq_ok.1 h
      obtain rfl := pure_eq_ok.1 h
      obtain ⟨-, rfl⟩ := count_eq_ok.1 hfirst
      obtain ⟨hlimit, rfl⟩ := count_eq_ok.1 hsecond
      obtain ⟨hheight, rfl⟩ := heightAbove_eq_ok.1 habove
      refine ⟨⟨_, _, hnegative, hderives.negated, hnesting⟩, ?_, hheight, ?_, hlimit⟩
      · rw [height_negated, if_neg hliteral, hreads.height_eq]
      · have hnodes : inner.next.nodes = start.nodes + inner.tree.size := hreads.nodes_eq
        rw [size_negated, if_neg hliteral]
        change inner.next.nodes + 1 + 1 = start.nodes + (inner.tree.size + 2)
        omega
  · have hreads := sound_primary hgroup h
    obtain ⟨tokens, nesting, hvalues, hderives, hnesting⟩ := hreads.derives
    exact { hreads with derives := ⟨tokens, nesting, hvalues, .plain hderives, hnesting⟩ }

theorem sound_powerOf (hgroup : Sound setting .sum levels group)
    (hexponent : Sound setting .power levels exponent) :
    Sound setting .power (levels + 1) (powerOf setting group exponent) := by
  intro start step h
  obtain ⟨base, hbase, h⟩ := bind_eq_ok.1 h
  have hreads := sound_operand hgroup hbase
  obtain ⟨tokens, m, hvalues, hderives, hm⟩ := hreads.derives
  split at h
  · next hrest =>
    obtain ⟨raised, hraised, h⟩ := bind_eq_ok.1 h
    obtain ⟨nodes, hcount, h⟩ := bind_eq_ok.1 h
    obtain ⟨above, habove, h⟩ := bind_eq_ok.1 h
    obtain rfl := pure_eq_ok.1 h
    obtain ⟨hlimit, rfl⟩ := count_eq_ok.1 hcount
    obtain ⟨hheight, rfl⟩ := heightAbove_eq_ok.1 habove
    have hreads' := hexponent hraised
    obtain ⟨tokens', n, hvalues', hderives', hn⟩ := hreads'.derives
    refine ⟨⟨_, _, ?_, .raised hderives hderives', by omega⟩, ?_, hheight, ?_, hlimit⟩
    · rw [hvalues, Cursor.values_cons hrest, List.append_assoc, List.cons_append]
      exact congrArg _ (congrArg _ hvalues')
    · rw [Expr.height, hreads.height_eq, hreads'.height_eq]
    · have hnodes := hreads.nodes_eq
      have hnodes' : raised.next.nodes = base.next.nodes + raised.tree.size := hreads'.nodes_eq
      change raised.next.nodes + 1 = start.nodes + (base.tree.size + raised.tree.size + 1)
      omega
  · obtain rfl := pure_eq_ok.1 h
    exact { hreads with derives := ⟨tokens, m, hvalues, .single hderives, hm⟩ }

/-- What `joinFrom` adds to a left operand: further operands, each behind a fitting operator. -/
structure Extends (setting : Setting) (level : Level) (levels : Nat) {start : Cursor}
    (left step : Step start) : Prop where
  joints : ∃ joints : List Joint, left.next.values =
      joints.flatMap Joint.spelling ++ step.next.values ∧
    step.tree = joints.foldl Joint.join left.tree ∧
    ∀ joint ∈ joints, level.fits joint.operator = true ∧ joint.nesting ≤ levels ∧
      Derives level.operand joint.tokens joint.tree joint.nesting
  height_eq : step.height = step.tree.height
  height_le : step.height ≤ maxHeight
  nodes_eq : step.next.nodes = start.nodes + step.tree.size
  nodes_le : step.next.nodes ≤ setting.maxNodes

theorem joinFrom_extends {level : Level} (hitem : Sound setting level.operand levels item)
    {start : Cursor} {left step : Step start}
    (h : joinFrom setting level.fits item left = .ok step)
    (hheight : left.height = left.tree.height) (hheight_le : left.height ≤ maxHeight)
    (hnodes : left.next.nodes = start.nodes + left.tree.size)
    (hnodes_le : left.next.nodes ≤ setting.maxNodes) :
    Extends setting level levels left step := by
  have hdone : Extends setting level levels left left :=
    ⟨⟨[], rfl, rfl, by simp⟩, hheight, hheight_le, hnodes, hnodes_le⟩
  fun_induction joinFrom setting level.fits item left with
  | case1 left operator position rest hrest hfits ih =>
    obtain ⟨right, hright, h⟩ := bind_eq_ok.1 h
    obtain ⟨nodes, hcount, h⟩ := bind_eq_ok.1 h
    obtain ⟨above, habove, h⟩ := bind_eq_ok.1 h
    obtain ⟨hlimit, rfl⟩ := count_eq_ok.1 hcount
    obtain ⟨hbound, rfl⟩ := heightAbove_eq_ok.1 habove
    have hreads := hitem hright
    obtain ⟨tokens, nesting, hvalues, hderives, hnesting⟩ := hreads.derives
    have hheight' : max left.height right.height + 1 =
        (Expr.binary operator left.tree right.tree).height := by
      rw [Expr.height, hheight, hreads.height_eq]
    have hnodes' : right.next.nodes + 1 =
        start.nodes + (Expr.binary operator left.tree right.tree).size := by
      have hitems : right.next.nodes = left.next.nodes + right.tree.size := hreads.nodes_eq
      rw [Expr.size]
      omega
    have hextends := ih right _ _ h hheight' hbound hnodes' hlimit
      ⟨⟨[], rfl, rfl, by simp⟩, hheight', hbound, hnodes', hlimit⟩
    obtain ⟨joints, hjoints, htree, hall⟩ := hextends.joints
    refine { hextends with joints := ⟨⟨operator, tokens, right.tree, nesting⟩ :: joints, ?_,
      htree, ?_⟩ }
    · rw [Cursor.values_cons hrest, List.flatMap_cons, List.append_assoc, ← hjoints]
      exact congrArg _ hvalues
    · rintro joint (_ | ⟨_, hmem⟩)
      · exact ⟨hfits, hnesting, hderives⟩
      · exact hall joint hmem
  | case2 left operator position rest hrest hfits =>
    cases h
    exact hdone
  | case3 left hrest =>
    cases h
    exact hdone

theorem foldl_max_le {joints : List Joint} {nesting bound : Nat} (h : nesting ≤ bound)
    (hall : ∀ joint ∈ joints, joint.nesting ≤ bound) :
    joints.foldl (fun n joint => max n joint.nesting) nesting ≤ bound := by
  induction joints generalizing nesting with
  | nil => exact h
  | cons joint joints ih =>
    exact ih (Nat.max_le.2 ⟨h, hall joint List.mem_cons_self⟩)
      fun joint hmem => hall joint (List.mem_cons_of_mem _ hmem)

theorem sound_joined (level : Level) (hitem : Sound setting level.operand levels item) :
    Sound setting (.joined level) levels (joined setting level.fits item) := by
  intro start step h
  obtain ⟨left, hleft, h⟩ := bind_eq_ok.1 h
  have hreads := hitem hleft
  obtain ⟨tokens, nesting, hvalues, hderives, hnesting⟩ := hreads.derives
  have hextends := joinFrom_extends hitem h hreads.height_eq hreads.height_le hreads.nodes_eq
    hreads.nodes_le
  obtain ⟨joints, hjoints, htree, hall⟩ := hextends.joints
  refine ⟨⟨tokens ++ joints.flatMap Joint.spelling,
    joints.foldl (fun n joint => max n joint.nesting) nesting, ?_, ?_, ?_⟩, hextends.height_eq,
    hextends.height_le, hextends.nodes_eq, hextends.nodes_le⟩
  · rw [hvalues, hjoints, List.append_assoc]
  · rw [htree]
    exact .joined joints hderives (fun joint hmem => (hall joint hmem).1)
      fun joint hmem => (hall joint hmem).2.2
  · exact foldl_max_le hnesting fun joint hmem => (hall joint hmem).2.1

theorem sound_sumOf {power : Rule} (hpower : Sound setting .power levels power) :
    Sound setting .sum levels (sumOf setting power) :=
  sound_joined .additive (sound_joined .multiplicative hpower)

theorem sound_power (setting : Setting) (levels : Nat) :
    Sound setting .power (levels + 1) (power setting levels) := by
  induction levels with
  | zero => exact sound_powerOf (sound_tooDeep _) (sound_tooDeep _)
  | succ levels ih => exact sound_powerOf (sound_sumOf ih) ih

theorem sound_formula (setting : Setting) :
    Sound setting .sum maxNesting (formula setting) :=
  sound_sumOf (sound_power setting (maxNesting - 1))

end Waveform.Formula.Parser
