import Mathlib.Data.List.Forall2
import Waveform.Catalog.Standard
import Waveform.Proofs.Decimal.Identities

/-!
# Recombining decompositions

A sum is accumulated step by step over all instants, which is the same as adding up the steps at
each instant. So a decomposition builds a tree: the last step of a sequence, or the chain of
additions and subtractions of a sum, where a term with a negative factor is subtracted. Whatever the
steps are, recombining them gives the values of that tree at every instant, infinities and NaN
included; the standard signals are the trees that their steps build. Main statements:
`Decomposition.recombine_of_tree` and `standard_recombines`.
-/

namespace Waveform.Formula.Expr

open Waveform.Decimal

/-- A tree and a further term. A term with a negative factor is subtracted with the positive one. -/
def plus (tree term : Expr) : Expr :=
  match term with
  | binary .mul (literal factor) rest =>
    if factor = -1 then binary .sub tree rest
    else if factor < 0 then binary .sub tree (binary .mul (literal (-factor)) rest)
    else binary .add tree term
  | _ => binary .add tree term

theorem eval_plus (tree term : Expr) (t : Float) :
    (tree.plus term).eval t = tree.eval t + term.eval t := by
  fun_cases plus tree term with
  | case1 rest => exact (add_neg_one_mul _ _).symm
  | case2 factor rest => exact sub_neg_mul _ factor _
  | case3 | case4 => rfl

def chain? : List Expr → Option Expr
  | [] => none
  | first :: rest => some (rest.foldl plus first)

theorem eval_foldl_plus (terms : List Expr) (first : Expr) (t : Float) :
    (terms.foldl plus first).eval t = (terms.map (·.eval t)).foldl (· + ·) (first.eval t) := by
  induction terms generalizing first with
  | nil => rfl
  | cons term terms ih => rw [List.foldl_cons, ih, eval_plus, List.map_cons, List.foldl_cons]

end Waveform.Formula.Expr

namespace Waveform.Catalog

open Waveform.Formula Waveform.Decimal

namespace Decomposition

/-! ### Instant by instant -/

theorem accumulate_map (total : Float → Float) (step : DecompositionStep) (ts : List Float) :
    accumulate (ts.map total) step ts = ts.map fun t => total t + step.program.evaluate t := by
  rw [accumulate, Program.evaluateAll, List.zipWith_map, List.zipWith_self]

theorem foldl_accumulate_map (total : Float → Float) (steps : List DecompositionStep)
    (ts : List Float) :
    steps.foldl (fun totals step => accumulate totals step ts) (ts.map total) =
      ts.map fun t => (steps.map (·.program.evaluate t)).foldl (· + ·) (total t) := by
  induction steps generalizing total with
  | nil => rfl
  | cons step steps ih =>
    rw [List.foldl_cons, accumulate_map, ih]
    rfl

variable {decomposition : Decomposition}

/-- The values of a sum at one instant are added from zero, in the order of the steps. -/
theorem recombine_sum (hsum : decomposition.combination = .sum) (ts : List Float) :
    decomposition.recombine ts =
      ts.map fun t => (decomposition.steps.map (·.program.evaluate t)).foldl (· + ·) 0 := by
  have hzeros : List.replicate ts.length (0 : Float) = ts.map fun _ => 0 :=
    (List.map_const ..).symm
  rw [recombine, hsum, hzeros]
  cases hlast : decomposition.steps.getLast? with
  | none =>
    rw [List.getLast?_eq_none_iff.1 hlast]
    rfl
  | some last => exact foldl_accumulate_map _ decomposition.steps ts

theorem recombine_sequence {last : DecompositionStep}
    (hsequence : decomposition.combination = .sequence)
    (hlast : decomposition.steps.getLast? = some last) (ts : List Float) :
    decomposition.recombine ts = last.program.evaluateAll ts := by
  rw [recombine, hsequence, hlast]

/-! ### The tree of the steps -/

def tree? (decomposition : Decomposition) : Option Expr :=
  let roots := decomposition.steps.map (·.program.root)
  match decomposition.combination with
  | .sequence => roots.getLast?
  | .sum => Expr.chain? roots

/-- Recombined steps have the values of the tree that they build. -/
theorem recombine_of_tree {tree : Expr} (htree : decomposition.tree? = some tree)
    (ts : List Float) :
    List.Forall₂ SameNumber (decomposition.recombine ts) (ts.map tree.eval) := by
  cases hcombination : decomposition.combination with
  | sequence =>
    rw [tree?, hcombination] at htree
    simp only [List.getLast?_map, Option.map_eq_some_iff] at htree
    obtain ⟨last, hlast, rfl⟩ := htree
    rw [recombine_sequence hcombination hlast]
    exact List.forall₂_same.2 fun _ _ => SameNumber.refl _
  | sum =>
    rw [tree?, hcombination] at htree
    cases hsteps : decomposition.steps with
    | nil => simp [hsteps, Expr.chain?] at htree
    | cons first rest =>
      simp only [hsteps, List.map_cons, Expr.chain?, Option.some.injEq] at htree
      subst htree
      rw [recombine_sum hcombination, hsteps]
      simp only [List.forall₂_map_left_iff, List.forall₂_map_right_iff]
      refine List.forall₂_same.2 fun t _ => ?_
      rw [Expr.eval_foldl_plus, List.map_map]
      exact (SameNumber.zero_add _).foldl_add _

end Decomposition

/-! ### The standard catalog -/

/-- Every standard signal compiles, and its steps build its tree. -/
theorem standard_builds : ∀ signal ∈ standard.rows, signal.isValid ∧
    ∀ decomposition ∈ signal.decomposition,
      decomposition.tree? = signal.program.toOption.map (·.root) := by
  decide +kernel

theorem standard_decomposed :
    (standard.rows.filterMap fun signal => signal.decomposition.map fun decomposition =>
      (signal.name, decomposition.combination,
        decomposition.steps.map fun step => (step.description, step.program.source))) =
      standardDecompositions := by
  decide +kernel

theorem exists_of_mem_standardDecompositions {name : String} {combination : Combination}
    {parts : List (String × String)} (hmem : (name, combination, parts) ∈ standardDecompositions) :
    ∃ signal ∈ standard.rows, signal.name = name ∧ ∃ decomposition ∈ signal.decomposition,
      decomposition.combination = combination ∧
        decomposition.steps.map (fun step => (step.description, step.program.source)) = parts := by
  rw [← standard_decomposed, List.mem_filterMap] at hmem
  obtain ⟨signal, hsignal, hentry⟩ := hmem
  obtain ⟨decomposition, hsteps, hentry⟩ := Option.map_eq_some_iff.1 hentry
  simp only [Prod.mk.injEq] at hentry
  obtain ⟨hname, hcombination, hparts⟩ := hentry
  exact ⟨signal, hsignal, hname, decomposition, hsteps, hcombination, hparts⟩

/--
The steps of a standard signal give back its values at whatever instants, and not only up to a
tolerance.
-/
theorem standard_recombines {signal : Signal} {decomposition : Decomposition}
    (hmem : signal ∈ standard.rows) (hsteps : signal.decomposition = some decomposition) :
    ∃ program, signal.program = .ok program ∧
      ∀ ts, List.Forall₂ SameNumber (decomposition.recombine ts) (program.evaluateAll ts) := by
  obtain ⟨hvalid, hbuilds⟩ := standard_builds signal hmem
  have htree := hbuilds decomposition hsteps
  cases hprogram : signal.program with
  | error error => simp [Signal.isValid, hprogram, Except.isOk, Except.toBool] at hvalid
  | ok program =>
    rw [hprogram] at htree
    exact ⟨program, rfl, fun ts => decomposition.recombine_of_tree htree ts⟩

/-- Four impulses, the second and the fourth with a negative weight. -/
theorem standard_recombines_impulses :
    ∃ signal ∈ standard.rows, signal.name = "x6(t)" ∧ ∃ decomposition ∈ signal.decomposition,
      decomposition.combination = .sum ∧ ∃ program, signal.program = .ok program ∧
        ∀ ts, List.Forall₂ SameNumber (decomposition.recombine ts) (program.evaluateAll ts) := by
  have hentry : ("x6(t)", Combination.sum,
      [("2δ(t+1): impulse of weight 2 at t = -1", "2delta(t+1)"),
        ("-δ(t-2): negative impulse at t = 2", "-delta(t-2)"),
        ("δ(t): impulse at t = 0", "delta(t)"),
        ("-2δ(t-1): impulse of weight -2 at t = 1", "-2delta(t-1)")]) ∈
      standardDecompositions := by
    decide
  obtain ⟨signal, hmem, hname, decomposition, hsteps, hcombination, -⟩ :=
    exists_of_mem_standardDecompositions hentry
  exact ⟨signal, hmem, hname, decomposition, hsteps, hcombination, standard_recombines hmem hsteps⟩

end Waveform.Catalog
