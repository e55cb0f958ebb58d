import Waveform.Proofs.Formula.Splicing
import Waveform.Sampling.Series

/-!
# Dependence on time

Whether the tree of a formula depends on time can be read off its tokens: no rule of the grammar
drops an operand, and the only token that stands for time is its name. A tree that does not depend
on time has one value at all instants, whatever its parts mean. Main statement:
`dependsOnTime_exact`.
-/

namespace Waveform.Formula

/-! ### The tokens of a tree -/

theorem timeName_ne_elementary (function : Elementary) : timeName ≠ function.name := by
  cases function <;> decide

theorem dependsOnTime_foldl_join (joints : List Joint) (left : Expr) :
    (joints.foldl Joint.join left).dependsOnTime = true ↔
      left.dependsOnTime = true ∨ ∃ joint ∈ joints, joint.tree.dependsOnTime = true := by
  induction joints generalizing left with
  | nil => simp
  | cons joint joints ih =>
    rw [List.foldl_cons, ih, Joint.join, Expr.dependsOnTime, Bool.or_eq_true,
      List.exists_mem_cons_iff, or_assoc]

/-- A part of a formula depends on time if and only if it mentions it. -/
theorem Derives.dependsOnTime_iff {category : Category} {tokens : List Token} {tree : Expr}
    {nesting : Nat} (h : Derives category tokens tree nesting) :
    tree.dependsOnTime = true ↔ .name timeName ∈ tokens := by
  induction h with
  | joined joints hfirst hfits hjoints ih ihs =>
    rw [dependsOnTime_foldl_join, List.mem_append, List.mem_flatMap, ih]
    refine or_congr_right (exists_congr fun joint => and_congr_right fun hjoint => ?_)
    rw [ihs joint hjoint, Joint.spelling, List.mem_cons]
    exact (or_iff_right Token.noConfusion).symm
  | single hoperand ih => exact ih
  | raised hbase hexponent ih ih' => simp [Expr.dependsOnTime, ih, ih']
  | plain hprimary ih => exact ih
  | negativeLiteral hprimary ih => simp [← ih, Expr.dependsOnTime]
  | negative hprimary hother ih => simp [Expr.dependsOnTime, ih]
  | number value => simp [Expr.dependsOnTime]
  | time => simp [Expr.dependsOnTime]
  | constant constant => simp [Expr.dependsOnTime, timeName_ne_constant]
  | call function hargument ih => simp [Expr.dependsOnTime, timeName_ne_elementary, ih]
  | group hinner ih => simp [ih]

/-! ### Values of a tree -/

theorem Expr.evalIn_of_dependsOnTime {α : Type} [Add α] [Sub α] [Mul α] [Div α] [Pow α α]
    (meaning : Semantics α) {tree : Expr} (h : tree.dependsOnTime = false) (t t' : α) :
    tree.evalIn meaning t = tree.evalIn meaning t' := by
  induction tree with
  | literal value => rfl
  | time => cases h
  | call function argument ih => rw [evalIn, evalIn, ih h]
  | binary operator left right ihleft ihright =>
    obtain ⟨hleft, hright⟩ := Bool.or_eq_false_iff.mp h
    rw [evalIn, evalIn, ihleft hleft, ihright hright]

namespace Program

variable {program : Program}

theorem evaluate_of_dependsOnTime (h : program.dependsOnTime = false) (t t' : Float) :
    program.evaluate t = program.evaluate t' :=
  Expr.evalIn_of_dependsOnTime .binary64 h t t'

theorem evaluateAll_of_dependsOnTime (h : program.dependsOnTime = false) (t : Float)
    (ts : List Float) : program.evaluateAll ts = List.replicate ts.length (program.evaluate t) := by
  rw [evaluateAll, List.map_eq_replicate_iff]
  exact fun t' _ => evaluate_of_dependsOnTime h t' t

/-! ### Main statement -/

/-- The tree of a formula depends on time exactly if the formula mentions time. -/
theorem dependsOnTime_of_compileWith {source : String} {maxNodes : Nat}
    (hprogram : compileWith source maxNodes = .ok program) :
    ∃ tokens, tokenize source = .ok tokens ∧
      (program.dependsOnTime = true ↔ .name timeName ∈ tokens.map (·.value)) := by
  obtain ⟨tokens, htokens, hread⟩ := compileWith_eq_ok.mp hprogram
  obtain ⟨readings, hcuts, rfl⟩ := tokenize_eq_ok.mp htokens
  obtain ⟨⟨nesting, hderives, -⟩, -⟩ := Parser.parse_reads (ofTokens_eq_ok.mp hread).1
  rw [formulaTokens_withProducts hcuts] at hderives
  refine ⟨_, htokens, ?_⟩
  rw [dependsOnTime, hderives.dependsOnTime_iff, List.map_append, map_value_withProducts]
  simp

/--
A formula that compiles depends on time exactly if its name is among the tokens of the formula. A
program that does not depend on time has the same value at any two instants, NaN included, so all
its values on a list of instants are one number, and so are those of its series on a grid.
-/
theorem dependsOnTime_exact :
    (∀ (source : String) (maxNodes : Nat) (program : Program),
      compileWith source maxNodes = .ok program → ∃ tokens, tokenize source = .ok tokens ∧
        (program.dependsOnTime = true ↔ .name timeName ∈ tokens.map (·.value))) ∧
    ∀ program : Program, program.dependsOnTime = false → ∀ t : Float,
      (∀ t', program.evaluate t' = program.evaluate t) ∧
      (∀ ts, program.evaluateAll ts = List.replicate ts.length (program.evaluate t)) ∧
      ∀ grid : Sampling.TimeGrid, (Sampling.Series.sample program.evaluate grid).values =
        List.replicate grid.count (program.evaluate t) := by
  refine ⟨fun source maxNodes program => dependsOnTime_of_compileWith, fun program h t => ?_⟩
  refine ⟨fun t' => evaluate_of_dependsOnTime h t' t, evaluateAll_of_dependsOnTime h t, ?_⟩
  intro grid
  rw [Sampling.Series.values_sample, ← evaluateAll, evaluateAll_of_dependsOnTime h t,
    Sampling.TimeGrid.length_times]

/-- A formula that calls `tan`, which is no mention of time, and has no value at any instant. -/
def timeless : Program :=
  ⟨"tan(4pi)+log(-1)",
    .binary .add (.call .tan (.binary .mul (.literal 4) (.literal Constant.pi.value)))
      (.call .log (.literal (-1))), 7⟩

/-- That is the same at two instants, and a product with zero still depends on time. -/
theorem dependsOnTime_exact_timeless :
    compileWith timeless.source 9 = .ok timeless ∧ timeless.dependsOnTime = false ∧
      timeless.evaluate 1 = timeless.evaluate (0 / 0) ∧
      ∃ product, compileWith "0 t" 3 = .ok product ∧ product.dependsOnTime = true := by
  have hvalues := (dependsOnTime_exact.2 timeless rfl (0 / 0)).1 1
  have hproduct : compileWith "0 t" 3 = .ok ⟨"0 t", .binary .mul (.literal 0) .time, 3⟩ := by
    decide +kernel
  have hread : tokenize "0 t" = .ok [⟨.number 0, 0⟩, ⟨.operator .mul, 2⟩, ⟨.name "t", 2⟩,
      ⟨.finish, 3⟩] := by decide +kernel
  obtain ⟨tokens, htokens, hiff⟩ := dependsOnTime_exact.1 _ _ _ hproduct
  have hmention : .name timeName ∈ tokens.map (·.value) := by
    cases htokens.symm.trans hread
    decide
  exact ⟨by decide +kernel, rfl, hvalues, _, hproduct, hiff.mpr hmention⟩

end Program

end Waveform.Formula
