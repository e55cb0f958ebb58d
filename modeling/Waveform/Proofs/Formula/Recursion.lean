import Waveform.Proofs.Formula.Activation

/-!
# How deep the recursion of a parse goes

The routines that are active at a moment of a parse form a chain of calls, and the calls of one
level go down a fixed order of the routines. So no routine is active again within itself unless a
level has been opened in between, and no more than six routines wait on one level. As the depth is
the number of levels that are open, and no level is opened beyond the limit of nesting, neither the
levels nor the waiting routines can be more than a number that does not depend on the tokens.

Main statements: `Machine.Regular.shallow`, for every moment that `Transition.regular` leads to, and
`Transition.advances`, on the loops.
-/

namespace Waveform.Formula.Parser.Counting.Activation

variable {tokens : List (Placed Token)} {maxNodes : Nat} {machine next : Machine}
  {stack : List Frame} {task : Task} {state : Counters}

/-! ### Chains of calls -/

/--
`Suspended task stack` says that a routine was called for the task by the first of the waiting
routines, that one by the second, and so on up to the sum that is the whole formula.
-/
inductive Suspended : Task → List Frame → Prop
  | whole : Suspended (.read .sum) []
  | call {stack : List Frame} (frame : Frame) (h : Suspended frame.task stack) :
      Suspended frame.awaited (frame :: stack)

/-- The place of a routine among those that call one another on one level, a sum being the last. -/
def Task.rank : Task → Nat
  | .read (.joined .multiplicative) => 5
  | .read .power => 4
  | .read .operand => 3
  | .read .primary => 2
  | .apply _ => 1
  | .read (.joined .additive) => 0

theorem Task.rank_le (task : Task) : task.rank ≤ 5 := by
  match task with
  | .read (.joined .multiplicative) | .read (.joined .additive) | .read .power | .read .operand
  | .read .primary | .apply _ => simp [rank]

theorem Task.rank_eq_of_routine {task other : Task} (h : task.routine = other.routine) :
    task.rank = other.rank := by
  match task, other with
  | .read category, .read other =>
      cases h
      rfl
  | .apply _, .apply _ => rfl

theorem Frame.rank_lt {frame : Frame} (h : frame.levels = 0) :
    frame.awaited.rank < frame.task.rank := by
  match frame with
  | .first .multiplicative | .further .multiplicative _ _ | .base | .plain | .negative | .group
  | .applied _ | .argument _ _ _ _ => simp [awaited, task, Task.rank, Level.operand]
  | .first .additive | .further .additive _ _ | .exponent _ => cases h

theorem Suspended.length_le (h : Suspended task stack) :
    stack.length + task.rank ≤ 6 * opened stack := by
  induction h with
  | whole => exact Nat.le_refl 0
  | @call stack frame h ih =>
      have hle := frame.awaited.rank_le
      rw [opened_cons, List.length_cons]
      -- Either the rank falls or a level is opened, which makes up for the greatest rank.
      by_cases hlevels : frame.levels = 0
      · have hlt := frame.rank_lt hlevels
        omega
      · omega

theorem Suspended.of_append {inside outside : List Frame} (h : Suspended task (inside ++ outside)) :
    ∃ outer, Suspended outer outside := by
  induction inside generalizing task with
  | nil => exact ⟨task, h⟩
  | cons frame inside ih =>
      cases h with
      | call _ h => exact ih h

/-- Along calls that open no level the routines come later and later. -/
theorem Suspended.rank_lt {calls outside : List Frame} {outer : Frame}
    (h : Suspended task (calls ++ outside)) (hlevels : opened calls = 0)
    (houter : outer ∈ calls.getLast?) : task.rank < outer.task.rank := by
  induction calls generalizing task with
  | nil => cases houter
  | cons frame calls ih =>
      cases h with
      | call _ h =>
        rw [opened_cons, Nat.add_eq_zero_iff] at hlevels
        have hlt := frame.rank_lt hlevels.1
        cases calls with
        | nil =>
            cases houter
            exact hlt
        | cons frame' calls =>
            rw [List.getLast?_cons_cons] at houter
            exact hlt.trans (ih h hlevels.2 houter)

/-- The calls of a chain lead from a routine back to it. -/
def Cyclic (calls : List Frame) : Prop :=
  ∃ inner ∈ calls.head?, ∃ outer ∈ calls.getLast?, inner.awaited.routine = outer.task.routine

/-- No routine is active again within itself unless a level has been opened in between. -/
theorem Suspended.opened_pos {calls : List Frame} (h : Suspended task stack)
    (hcalls : calls <:+: stack) (hcyclic : Cyclic calls) : 0 < opened calls := by
  obtain ⟨inside, outside, rfl⟩ := hcalls
  obtain ⟨inner, hinner, outer, houter, hroutine⟩ := hcyclic
  rw [List.append_assoc] at h
  obtain ⟨reached, hreached⟩ := h.of_append
  refine Nat.pos_of_ne_zero fun hlevels => ?_
  have hlt := hreached.rank_lt hlevels houter
  cases calls with
  | nil => cases hinner
  | cons frame calls =>
      cases hinner
      cases hreached with
      | call _ h => exact hlt.ne (Task.rank_eq_of_routine hroutine)

/-! ### What every step keeps -/

/-- The counters agree with the waiting routines. -/
structure Accords (tokens : List (Placed Token)) (state : Counters) (stack : List Frame) :
    Prop where
  within : state.position ≤ tokens.length
  depth_eq : state.depth = opened stack
  depth_le : state.depth ≤ maxNesting

theorem Accords.opened_le (h : Accords tokens state stack) : opened stack ≤ maxNesting :=
  h.depth_eq ▸ h.depth_le

theorem Accords.length_le (h : Accords tokens state stack) (hsuspended : Suspended task stack) :
    stack.length ≤ 6 * maxNesting := by
  have hlength := hsuspended.length_le
  have hopened := h.opened_le
  omega

/-- Every turn that a waiting routine is in began before a place. -/
def Behind (stack : List Frame) (place : Nat) : Prop :=
  ∀ frame ∈ stack, ∀ start ∈ frame.turn, start < place

theorem Behind.mono {place further : Nat} (h : Behind stack place) (hle : place ≤ further) :
    Behind stack further :=
  fun frame hframe start hstart => (h frame hframe start hstart).trans_le hle

theorem Behind.cons {frame : Frame} {place : Nat} (hframe : ∀ start ∈ frame.turn, start < place)
    (h : Behind stack place) : Behind (frame :: stack) place :=
  List.forall_mem_cons.mpr ⟨hframe, h⟩

theorem Behind.tail {frame : Frame} {place : Nat} (h : Behind (frame :: stack) place) :
    Behind stack place :=
  fun outer houter => h outer (List.mem_cons_of_mem _ houter)

/--
What is so at every moment. A routine is called at the place where the turn begins or behind it, and
it returns only behind it.
-/
def Machine.Regular (tokens : List (Placed Token)) : Machine → Prop
  | .entering task state stack =>
    Suspended task stack ∧ Accords tokens state stack ∧ Behind stack (state.position + 1)
  | .leaving reading stack =>
    (∃ task, Suspended task stack) ∧ Accords tokens reading.after stack ∧
      Behind stack reading.after.position
  | .ended _ => True

theorem position_of_moves {before after : Counters} (hwithin : before.position ≤ tokens.length)
    (h : Forward tokens before after ∨ after.position = before.position) :
    before.position ≤ after.position ∧ after.position ≤ tokens.length := by
  obtain ⟨hahead, hafter⟩ | hstays := h
  · exact ⟨hahead.le, hafter⟩
  · omega

theorem Transition.regular (h : Transition tokens machine next)
    (hregular : machine.Regular tokens) : next.Regular tokens := by
  cases h with
  | @calls state after stack frame hmoves hdepth hlimit hturn =>
      obtain ⟨hsuspended, ⟨hwithin, hdepth_eq, hdepth_le⟩, hbehind⟩ := hregular
      obtain ⟨hahead, hafter⟩ := position_of_moves hwithin (hmoves.imp_right And.left)
      refine ⟨.call frame hsuspended, ⟨hafter, ?_, ?_⟩, .cons ?_ ?_⟩
      · rw [opened_cons, hdepth, hdepth_eq, Nat.add_comm]
      · omega
      · exact fun start hstart => Nat.lt_succ_of_le (hturn start hstart)
      · exact hbehind.mono (Nat.succ_le_succ hahead)
  | answers hmoves hdepth =>
      obtain ⟨hsuspended, ⟨hwithin, hdepth_eq, hdepth_le⟩, hbehind⟩ := hregular
      exact ⟨⟨_, hsuspended⟩, ⟨hmoves.2, hdepth.trans hdepth_eq, hdepth.trans_le hdepth_le⟩,
        hbehind.mono hmoves.1⟩
  | @recalls reading frame after stack again htask hmoves hdepth hlimit hturn =>
      obtain ⟨⟨task, hsuspended⟩, ⟨hwithin, hdepth_eq, hdepth_le⟩, hbehind⟩ := hregular
      rw [opened_cons] at hdepth_eq
      refine ⟨.call again ?_, ⟨hmoves.2, ?_, ?_⟩, .cons ?_ ?_⟩
      · cases hsuspended with
        | call _ h => exact htask ▸ h
      · rw [opened_cons]
        omega
      · omega
      · exact fun start hstart => Nat.lt_succ_of_le (hturn start hstart).2
      · exact hbehind.tail.mono (hmoves.1.le.trans (Nat.le_succ _))
  | @returns inner reading frame stack hmoves hdepth =>
      obtain ⟨⟨task, hsuspended⟩, ⟨hwithin, hdepth_eq, hdepth_le⟩, hbehind⟩ := hregular
      obtain ⟨hahead, hafter⟩ := position_of_moves hwithin hmoves
      rw [opened_cons] at hdepth_eq
      refine ⟨?_, ⟨hafter, by omega, by omega⟩, hbehind.tail.mono hahead⟩
      cases hsuspended with
      | call _ h => exact ⟨_, h⟩
  | ends => trivial

theorem regular_initial (tokens : List (Placed Token)) : (initial tokens).Regular tokens := by
  rw [initial]
  split
  · trivial
  · exact ⟨.whole, ⟨Nat.zero_le _, rfl, Nat.zero_le _⟩, nofun⟩

theorem regular_run (tokens : List (Placed Token)) (maxNodes steps : Nat) :
    (run tokens maxNodes steps).Regular tokens := by
  induction steps with
  | zero => exact regular_initial tokens
  | succ steps ih =>
      rw [run, Function.iterate_succ_apply']
      exact (transition_step maxNodes _).regular ih

/-! ### Shallow moments -/

def Machine.waiting : Machine → List Frame
  | .entering _ _ stack | .leaving _ stack => stack
  | .ended _ => []

def Machine.counters? : Machine → Option Counters
  | .entering _ state _ => some state
  | .leaving reading _ => some reading.after
  | .ended _ => none

/--
The number of active routines for which a level is opened. A sum opens its level after it has been
entered, and the level of an exponent is opened before.
-/
def Machine.guarded : Machine → Nat
  | .entering (.read (.joined .additive)) _ stack => opened stack + 1
  | .entering _ _ stack | .leaving _ stack => opened stack
  | .ended _ => 0

/--
Bounds on the routines that are active, none of which depends on the tokens. A level that a waiting
routine has opened is one that the depth counts.
-/
structure Machine.Shallow (machine : Machine) : Prop where
  guarded_le : machine.guarded ≤ maxNesting + 1
  length_le : machine.waiting.length ≤ 6 * maxNesting
  opened_pos : ∀ calls, calls <:+: machine.waiting → Cyclic calls → 0 < opened calls
  depth_eq : ∀ state ∈ machine.counters?, state.depth = opened machine.waiting

theorem Machine.Regular.shallow (h : machine.Regular tokens) : machine.Shallow := by
  match machine with
  | .entering task state stack =>
      obtain ⟨hsuspended, haccords, -⟩ := h
      refine ⟨?_, haccords.length_le hsuspended, fun calls => hsuspended.opened_pos, ?_⟩
      · match task with
        | .read (.joined .additive) => exact Nat.succ_le_succ haccords.opened_le
        | .read (.joined .multiplicative) | .read .power | .read .operand | .read .primary
        | .apply _ => exact haccords.opened_le.trans (Nat.le_succ _)
      · rintro state ⟨⟩
        exact haccords.depth_eq
  | .leaving reading stack =>
      obtain ⟨⟨task, hsuspended⟩, haccords, -⟩ := h
      refine ⟨?_, haccords.length_le hsuspended, fun calls => hsuspended.opened_pos, ?_⟩
      · exact haccords.opened_le.trans (Nat.le_succ _)
      · rintro state ⟨⟩
        exact haccords.depth_eq
  | .ended outcome =>
      refine ⟨Nat.zero_le _, Nat.zero_le _, fun calls hcalls hcyclic => ?_, nofun⟩
      obtain ⟨inner, hinner, -⟩ := hcyclic
      cases List.infix_nil.mp hcalls
      cases hinner

/--
When the routine that a loop has called returns, the turn of the loop has read a token, and the
next turn does not begin before the place that has been reached.
-/
def Machine.Advances (tokens : List (Placed Token)) (machine next : Machine) : Prop :=
  ∀ (reading : Reading) (frame : Frame) (stack : List Frame),
    machine = .leaving reading (frame :: stack) → ∀ start ∈ frame.turn,
      start < reading.after.position ∧ reading.after.position ≤ tokens.length ∧
      ∀ (task : Task) (state : Counters) (again : Frame),
        next = .entering task state (again :: stack) →
          ∀ start' ∈ again.turn, reading.after.position ≤ start'

theorem Transition.advances (h : Transition tokens machine next)
    (hregular : machine.Regular tokens) : machine.Advances tokens next := by
  rintro reading frame stack rfl start hstart
  obtain ⟨-, haccords, hbehind⟩ := hregular
  refine ⟨hbehind frame List.mem_cons_self start hstart, haccords.within, ?_⟩
  rintro task state again rfl start' hstart'
  cases h with
  | recalls again htask hmoves hdepth hlimit hturn => exact (hturn start' hstart').1

end Waveform.Formula.Parser.Counting.Activation
