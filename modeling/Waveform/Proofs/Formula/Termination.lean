import Waveform.Proofs.Formula.Recursion

/-!
# A parse comes to an end

The machine with the stack ends within a number of steps that is linear in the number of tokens,
because every step leaves less work: a loop that goes on has read a token, and calls that read none
go down the grammar. Where it ends is what the routines with fuel give, and they need no more fuel
than there are levels of nesting and one more. So the machine, the routines with that fuel, and the
rules of the parser all come to the same end.

A routine is followed on any stack. What it calls in turn is followed first, and the induction is on
the fuel. Main statement: `run_ends_shallow`.
-/

namespace Waveform.Formula.Parser.Counting.Activation

variable {tokens : List (Placed Token)} {maxNodes : Nat} {machine next : Machine}
  {stack : List Frame} {task : Task} {state : Counters} {frame : Frame}

/-! ### The work that is left -/

/--
At least the number of steps that are left: twelve for every token, two for each of the calls that
may lead to the next token, and one for every waiting routine.
-/
def Machine.work (tokens : List (Placed Token)) : Machine → Nat
  | .entering task state stack =>
    12 * (tokens.length - state.position) + 2 * task.reach + 1 + stack.length
  | .leaving reading stack => 12 * (tokens.length - reading.after.position) + 1 + stack.length
  | .ended _ => 0

theorem Task.reach_le (task : Task) : task.reach ≤ 5 := by
  match task with
  | .read (.joined .multiplicative) | .read (.joined .additive) | .read .power | .read .operand
  | .read .primary | .apply _ => simp [reach]

theorem Transition.work_lt (h : Transition tokens machine next) (hwork : 0 < machine.work tokens) :
    next.work tokens < machine.work tokens := by
  cases h with
  | calls frame hmoves hdepth hlimit hturn =>
      have hreach := frame.awaited.reach_le
      simp only [Machine.work, List.length_cons]
      obtain ⟨hahead, hwithin⟩ | ⟨hstays, hlt⟩ := hmoves
      · omega
      · rw [hstays]
        omega
  | answers hmoves hdepth =>
      obtain ⟨hahead, hwithin⟩ := hmoves
      simp only [Machine.work]
      omega
  | @recalls reading frame after stack again htask hmoves hdepth hlimit hturn =>
      have hreach := again.awaited.reach_le
      obtain ⟨hahead, hwithin⟩ := hmoves
      simp only [Machine.work, List.length_cons]
      omega
  | returns hmoves hdepth =>
      simp only [Machine.work, List.length_cons]
      obtain ⟨hahead, hwithin⟩ | hstays := hmoves
      · omega
      · rw [hstays]
        omega
  | ends machine outcome => exact hwork

theorem iterate_ended (steps : Nat) (outcome : Except Halt (Expr × Nat)) :
    (step tokens maxNodes)^[steps] (.ended outcome) = .ended outcome :=
  Function.iterate_fixed rfl steps

theorem Machine.eq_ended_of_work (h : machine.work tokens = 0) :
    ∃ outcome, machine = .ended outcome := by
  cases machine with
  | ended outcome => exact ⟨outcome, rfl⟩
  | entering | leaving =>
      simp only [work] at h
      omega

theorem ended_of_work_le (maxNodes : Nat) {steps : Nat} (h : machine.work tokens ≤ steps) :
    ∃ outcome, (step tokens maxNodes)^[steps] machine = .ended outcome := by
  induction steps generalizing machine with
  | zero => exact machine.eq_ended_of_work (Nat.le_zero.mp h)
  | succ steps ih =>
      rw [Function.iterate_succ_apply]
      obtain hnone | hwork := Nat.eq_zero_or_pos (machine.work tokens)
      · obtain ⟨outcome, rfl⟩ := machine.eq_ended_of_work hnone
        exact ⟨outcome, iterate_ended steps outcome⟩
      · have hlt := (transition_step maxNodes machine).work_lt hwork
        exact ih (by omega)

theorem work_initial_le (tokens : List (Placed Token)) :
    (initial tokens).work tokens ≤ 12 * tokens.length + 9 := by
  rw [initial]
  split
  · exact Nat.zero_le _
  · exact Nat.le_refl _

/-! ### The routines, step by step -/

/-- That some steps of the machine lead from one moment to a later one. -/
def Reaches (tokens : List (Placed Token)) (maxNodes : Nat) (machine later : Machine) : Prop :=
  ∃ steps, (step tokens maxNodes)^[steps] machine = later

theorem Reaches.refl (machine : Machine) : Reaches tokens maxNodes machine machine := ⟨0, rfl⟩

theorem Reaches.trans {later last : Machine} (h : Reaches tokens maxNodes machine later)
    (h' : Reaches tokens maxNodes later last) : Reaches tokens maxNodes machine last := by
  obtain ⟨first, rfl⟩ := h
  obtain ⟨second, rfl⟩ := h'
  exact ⟨second + first, Function.iterate_add_apply _ _ _ _⟩

theorem Reaches.step {last : Machine}
    (h : Reaches tokens maxNodes (step tokens maxNodes machine) last) :
    Reaches tokens maxNodes machine last := by
  obtain ⟨steps, rfl⟩ := h
  exact ⟨steps + 1, Function.iterate_succ_apply _ _ _⟩

/-- A result that is due to the formula, so neither to a lack of fuel nor to a loop that stalled. -/
def Decided {α : Type} (result : Except Halt α) : Prop :=
  ∀ halt, result = .error halt → ∃ error, halt = .rejected error

theorem not_decided {α : Type} {halt : Halt} (h : ∀ error, halt ≠ .rejected error) :
    ¬ Decided (.error halt : Except Halt α) := by
  intro hdecided
  obtain ⟨error, herror⟩ := hdecided _ rfl
  exact h error herror

/--
The machine does what a routine does, on any stack. As the machine has no fuel and refuses no turn
of a loop, this is asked only where the routine comes to a result of the formula.
-/
def Performs (tokens : List (Placed Token)) (maxNodes : Nat) (routine : Routine) (task : Task) :
    Prop :=
  ∀ ⦃state : Counters⦄ ⦃stack : List Frame⦄, Decided (routine state) →
    Reaches tokens maxNodes (.entering task state stack) (settle (routine state) stack)

/-- A waiting routine goes on where the routine that it has called has come to a result. -/
theorem Performs.bind {routine : Routine} (h : Performs tokens maxNodes routine task)
    {rest : Reading → Except Halt Reading} (hdecided : Decided (routine state >>= rest))
    (hrest : ∀ reading, Decided (rest reading) →
      Reaches tokens maxNodes (.leaving reading (frame :: stack)) (settle (rest reading) stack)) :
    Reaches tokens maxNodes (.entering task state (frame :: stack))
      (settle (routine state >>= rest) stack) := by
  have hroutine := @h state (frame :: stack)
  generalize routine state = result at hdecided hroutine
  cases result with
  | ok reading => exact (hroutine nofun).trans (hrest reading hdecided)
  | error halt => exact hroutine hdecided

variable {group exponent item : Routine}

theorem exhausted_performs (task : Task) : Performs tokens maxNodes exhausted task :=
  fun _ _ h => absurd h (not_decided (by simp))

theorem reaches_proceed {α : Type} {result : Except Halt α} {later : α → Machine}
    {rest : α → Except Halt Reading} (hdecided : Decided (result >>= rest))
    (hrest : ∀ value, Decided (rest value) →
      Reaches tokens maxNodes (later value) (settle (rest value) stack)) :
    Reaches tokens maxNodes (proceed result later) (settle (result >>= rest) stack) := by
  cases result with
  | ok value => exact hrest value hdecided
  | error halt => exact .refl _

theorem Performs.handOn {routine : Routine} (h : Performs tokens maxNodes routine task)
    (hframe : ∀ reading, step tokens maxNodes (.leaving reading (frame :: stack)) =
      .leaving reading stack) (hdecided : Decided (routine state)) :
    Reaches tokens maxNodes (.entering task state (frame :: stack))
      (settle (routine state) stack) := by
  rw [← bind_pure (routine state)] at hdecided ⊢
  refine h.bind hdecided fun reading _ => .step ?_
  rw [hframe]
  exact .refl _

/-! ### Primaries -/

theorem applied_cons (result : Except Halt (List (Expr × Nat) × Counters)) (function : Elementary)
    (name : String) (earlier : List (Expr × Nat)) (argument : Expr × Nat) :
    ((result >>= fun (others, after) => pure (argument :: others, after)) >>= fun read =>
      applied maxNodes function name (earlier ++ read.1) read.2) =
    result >>= fun read =>
      applied maxNodes function name (earlier ++ [argument] ++ read.1) read.2 := by
  rw [bind_assoc]
  refine bind_congr fun read => ?_
  rw [List.append_assoc]
  rfl

theorem arguments_reaches (hgroup : Performs tokens maxNodes group (.read .sum))
    (function : Elementary) (name : String) (earlier : List (Expr × Nat)) (start : Nat)
    (hdecided : Decided (arguments tokens group name state >>= fun read =>
      applied maxNodes function name (earlier ++ read.1) read.2)) :
    Reaches tokens maxNodes
      (.entering (.read .sum) state (.argument function name earlier start :: stack))
      (settle (arguments tokens group name state >>= fun read =>
        applied maxNodes function name (earlier ++ read.1) read.2) stack) := by
  fun_induction arguments tokens group name state generalizing earlier start with
  | case1 state ih =>
    rw [bind_assoc] at hdecided ⊢
    refine hgroup.bind hdecided fun argument hdecided => .step ?_
    rw [step, resume]
    generalize peek tokens argument.after = token at hdecided ⊢
    cases token with
    | comma =>
        dsimp only at hdecided ⊢
        by_cases hforward : Forward tokens state (advance tokens argument.after)
        · rw [dif_pos hforward, applied_cons] at hdecided ⊢
          exact ih argument hforward _ _ hdecided
        · rw [dif_neg hforward] at hdecided
          exact absurd hdecided (not_decided (by simp))
    | closeParen => exact .refl _
    | _ => exact .refl _

theorem call_eq (group : Routine) (name : String) (state : Counters) :
    call tokens maxNodes group name state =
      match Elementary.ofName? name with
      | none => reject (.unknownFunction name)
      | some function =>
        argumentList tokens group name (advance tokens state) >>= fun read =>
          applied maxNodes function name read.1 read.2 := by
  rw [call]
  cases Elementary.ofName? name with
  | none => rfl
  | some function =>
      refine bind_congr fun read => ?_
      obtain ⟨trees, after⟩ := read
      cases trees with
      | nil => rfl
      | cons argument trees => cases trees <;> rfl

theorem call_performs (hgroup : Performs tokens maxNodes group (.read .sum)) (name : String) :
    Performs tokens maxNodes (call tokens maxNodes group name) (.apply name) := by
  intro state stack hdecided
  refine .step ?_
  rw [step, enter]
  rw [call_eq] at hdecided ⊢
  cases hfunction : Elementary.ofName? name with
  | none => exact .refl _
  | some function =>
      rw [hfunction] at hdecided
      dsimp only at hdecided ⊢
      rw [argumentList] at hdecided ⊢
      generalize peek tokens (advance tokens state) = token at hdecided ⊢
      cases token with
      | closeParen => exact .refl _
      | _ => exact arguments_reaches hgroup function name [] _ hdecided

theorem primary_performs (hgroup : Performs tokens maxNodes group (.read .sum)) :
    Performs tokens maxNodes (primary tokens maxNodes group) (.read .primary) := by
  intro state stack hdecided
  refine .step ?_
  rw [step, enter]
  rw [primary] at hdecided ⊢
  generalize peek tokens state = token at hdecided ⊢
  cases token with
  | number value => exact .refl _
  | openParen =>
      refine hgroup.bind hdecided fun inner _ => .step ?_
      rw [step, resume]
      cases peek tokens inner.after <;> exact .refl _
  | name name =>
      dsimp only at hdecided ⊢
      generalize peek tokens (advance tokens state) = token at hdecided ⊢
      cases token with
      | openParen => exact (call_performs hgroup name).handOn (fun _ => rfl) hdecided
      | _ => exact .refl _
  | _ => exact .refl _

/-! ### Operators -/

theorem operand_performs (hgroup : Performs tokens maxNodes group (.read .sum)) :
    Performs tokens maxNodes (operand tokens maxNodes group) (.read .operand) := by
  have hprimary := primary_performs hgroup
  intro state stack hdecided
  refine .step ?_
  rw [step, enter]
  rw [operand] at hdecided ⊢
  generalize peek tokens state = token at hdecided ⊢
  by_cases hsub : token = .operator .sub
  · subst hsub
    refine hprimary.bind hdecided fun inner _ => .step ?_
    obtain ⟨tree, height, after⟩ := inner
    cases tree <;> exact .refl _
  · cases token with
    | operator operator =>
        cases operator with
        | sub => exact absurd rfl hsub
        | _ => exact hprimary.handOn (fun _ => rfl) hdecided
    | _ => exact hprimary.handOn (fun _ => rfl) hdecided

/-- The machine reads an exponent as a routine does and raises a base to it. -/
def Raises (tokens : List (Placed Token)) (maxNodes : Nat) (exponent : Routine) : Prop :=
  ∀ ⦃state : Counters⦄ ⦃base : Reading⦄ ⦃stack : List Frame⦄,
    Decided (exponent state >>= binary maxNodes .pow base) →
    Reaches tokens maxNodes
      (proceed (descend state) fun state =>
        .entering (.read .power) state (.exponent base :: stack))
      (settle (exponent state >>= binary maxNodes .pow base) stack)

theorem exhausted_raises : Raises tokens maxNodes exhausted :=
  fun _ _ _ h => absurd h (not_decided (by simp))

theorem nested_eq (inner : Routine) (state : Counters) :
    nested inner state = descend state >>= fun opened => inner opened >>= close := rfl

theorem nested_raises (hpower : Performs tokens maxNodes item (.read .power)) :
    Raises tokens maxNodes (nested item) := by
  intro state base stack hdecided
  rw [nested_eq, bind_assoc] at hdecided ⊢
  refine reaches_proceed hdecided fun opened hdecided => ?_
  rw [bind_assoc] at hdecided ⊢
  exact hpower.bind hdecided fun reading _ => .step (.refl _)

theorem powerOf_performs (hgroup : Performs tokens maxNodes group (.read .sum))
    (hexponent : Raises tokens maxNodes exponent) :
    Performs tokens maxNodes (powerOf tokens maxNodes group exponent) (.read .power) := by
  intro state stack hdecided
  refine .step ((operand_performs hgroup).bind hdecided fun base hdecided => .step ?_)
  rw [step, resume]
  generalize peek tokens base.after = token at hdecided ⊢
  by_cases hpow : token = .operator .pow
  · subst hpow
    exact hexponent hdecided
  · cases token with
    | operator operator =>
        cases operator with
        | pow => exact absurd rfl hpow
        | _ => exact .refl _
    | _ => exact .refl _

theorem joinFrom_reaches {level : Level}
    (hitem : Performs tokens maxNodes item (.read level.operand)) {left : Reading}
    (hdecided : Decided (joinFrom tokens maxNodes level.fits item left >>= closeLevel level)) :
    Reaches tokens maxNodes (goOn tokens level left stack)
      (settle (joinFrom tokens maxNodes level.fits item left >>= closeLevel level) stack) := by
  fun_induction joinFrom tokens maxNodes level.fits item left with
  | case1 left operator hpeek hfits ih =>
    rw [goOn, hpeek]
    dsimp only
    rw [if_pos hfits]
    rw [bind_assoc] at hdecided ⊢
    refine hitem.bind hdecided fun right hdecided => .step ?_
    rw [bind_assoc] at hdecided ⊢
    refine reaches_proceed hdecided fun joined hdecided => ?_
    by_cases hforward : Forward tokens left.after joined.after
    · rw [dif_pos hforward] at hdecided ⊢
      exact ih joined hforward hdecided
    · rw [dif_neg hforward] at hdecided
      exact absurd hdecided (not_decided (by simp))
  | case2 left operator hpeek hfits =>
    rw [goOn, hpeek]
    dsimp only
    rw [if_neg hfits]
    exact .refl _
  | case3 left hpeek =>
    rw [goOn]
    split
    · next operator hoperator => exact (hpeek operator hoperator).elim
    · exact .refl _

theorem joined_performs (level : Level)
    (hitem : Performs tokens maxNodes item (.read level.operand)) :
    Performs tokens maxNodes
      (fun state => openLevel level state >>= fun opened =>
        joined tokens maxNodes level.fits item opened >>= closeLevel level)
      (.read (.joined level)) := by
  intro state stack hdecided
  refine .step (reaches_proceed hdecided fun opened hdecided => ?_)
  rw [joined, bind_assoc] at hdecided ⊢
  exact hitem.bind hdecided fun left hdecided => .step (joinFrom_reaches hitem hdecided)

/-! ### Levels -/

theorem product_performs (hpower : Performs tokens maxNodes item (.read .power)) :
    Performs tokens maxNodes (joined tokens maxNodes Operator.isMultiplicative item)
      (.read .product) := by
  intro state stack hdecided
  rw [← bind_pure (joined tokens maxNodes _ item state)] at hdecided ⊢
  exact joined_performs .multiplicative hpower hdecided

theorem nested_sumOf_performs (hpower : Performs tokens maxNodes item (.read .power)) :
    Performs tokens maxNodes (nested (sumOf tokens maxNodes item)) (.read .sum) :=
  joined_performs .additive (product_performs hpower)

theorem power_performs (fuel : Nat) :
    Performs tokens maxNodes (power tokens maxNodes fuel) (.read .power) := by
  induction fuel with
  | zero => exact powerOf_performs (exhausted_performs _) exhausted_raises
  | succ fuel ih => exact powerOf_performs (nested_sumOf_performs ih) (nested_raises ih)

theorem sum_performs (fuel : Nat) :
    Performs tokens maxNodes (sum tokens maxNodes fuel) (.read .sum) := by
  cases fuel with
  | zero => exact exhausted_performs _
  | succ fuel => exact nested_sumOf_performs (power_performs fuel)

/-! ### Main statement -/

theorem sum_decided (tokens : List (Placed Token)) (maxNodes : Nat) :
    Decided (sum tokens maxNodes (maxNesting + 1) ⟨0, 0, 0⟩) := by
  have hstart : Counters.At tokens ⟨0, 0, 0⟩ ⟨tokens, 0⟩ := ⟨rfl, rfl, Nat.zero_le _⟩
  have hfollows : Follows tokens 0 (sum tokens maxNodes (maxNesting + 1))
      (formula (settingOf tokens maxNodes)) :=
    sum_follows (Nat.zero_lt_succ maxNesting) (Nat.lt_succ_self maxNesting)
  intro halt hhalt
  have hagree := hfollows hstart rfl
  rw [hhalt] at hagree
  exact hagree.of_error

theorem reaches_parse (tokens : List (Placed Token)) (maxNodes : Nat) :
    Reaches tokens maxNodes (initial tokens)
      (.ended (parse tokens maxNodes (maxNesting + 1))) := by
  have hformula : Reaches tokens maxNodes (.entering (.read .sum) ⟨0, 0, 0⟩ [])
      (.ended (sum tokens maxNodes (maxNesting + 1) ⟨0, 0, 0⟩ >>= complete tokens)) := by
    refine (sum_performs (maxNesting + 1) (sum_decided tokens maxNodes)).trans ?_
    cases sum tokens maxNodes (maxNesting + 1) ⟨0, 0, 0⟩ with
    | ok root => exact .step (.refl _)
    | error halt => exact .refl _
  rw [initial, parse]
  cases peek tokens ⟨0, 0, 0⟩ with
  | finish => exact .refl _
  | _ => exact hformula

/-- Whatever a parse ends with, it has ended by the time for which there was work at first. -/
theorem run_eq_of_reaches {outcome : Except Halt (Expr × Nat)}
    (h : Reaches tokens maxNodes (initial tokens) (.ended outcome)) :
    run tokens maxNodes (12 * tokens.length + 9) = .ended outcome := by
  obtain ⟨steps, hsteps⟩ := h
  obtain ⟨last, hlast⟩ := ended_of_work_le maxNodes (work_initial_le tokens)
  have hcommute := Function.Commute.iterate_iterate_self (step tokens maxNodes) steps
    (12 * tokens.length + 9) (initial tokens)
  rw [hlast, iterate_ended, hsteps, iterate_ended] at hcommute
  rw [run, hlast, hcommute]

/--
A parse of any sequence of tokens comes to an end, after a number of steps that is linear in the
number of tokens, and it ends as the parser does. So do the routines whose fuel is for one level
more than the limit of nesting: a lack of fuel is no error of a formula, so they never lack it. At
every moment of the parse the active routines for which a level is opened are at most one more than
the limit of nesting, the routines that wait for one another are at most six for every level, and no
routine is active again within itself unless a level has been opened in between. Every turn of a
loop has read a token when it is over, and the next one begins there or further on.
-/
theorem run_ends_shallow (tokens : List (Placed Token)) (maxNodes : Nat) :
    run tokens maxNodes (12 * tokens.length + 9) =
      .ended ((Parser.parse tokens maxNodes).mapError .rejected) ∧
    parse tokens maxNodes (maxNesting + 1) = (Parser.parse tokens maxNodes).mapError .rejected ∧
    ∀ steps, (run tokens maxNodes steps).Shallow ∧
      (run tokens maxNodes steps).Advances tokens (run tokens maxNodes (steps + 1)) := by
  have hfuel : parse tokens maxNodes (maxNesting + 1) = _ :=
    (parse_agrees (Nat.lt_succ_self maxNesting)).eq_mapError
  refine ⟨?_, hfuel, fun steps => ?_⟩
  · rw [← hfuel]
    exact run_eq_of_reaches (reaches_parse tokens maxNodes)
  · have hregular := regular_run tokens maxNodes steps
    refine ⟨hregular.shallow, ?_⟩
    rw [run, run, Function.iterate_succ_apply']
    exact (transition_step maxNodes _).advances hregular

end Waveform.Formula.Parser.Counting.Activation
