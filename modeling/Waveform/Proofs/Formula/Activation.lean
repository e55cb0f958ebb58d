import Waveform.Proofs.Formula.Bookkeeping

/-!
# The activations of a parse

The routines that parse by position call one another. Here their calls are laid open: a machine
with a stack of the routines that wait for the result of another one. It takes a step for every
call, every result and every turn of a loop, it has no fuel, and it checks nothing that the routines
do not check themselves. So it tells of every moment of a parse which routines are active within one
another, which levels of nesting they have opened, and where in the tokens they stand.

What a step can do is said once, by `Transition`: where the parse stands afterwards, at which depth,
and what is new on the stack. Main statement: `transition_step`.
-/

namespace Waveform.Formula.Parser.Counting.Activation

/-! ### Calls -/

/-- What a routine is called for. -/
inductive Task where
  | read (category : Category)
  /-- To read the call of a function, from the opening parenthesis on. -/
  | apply (name : String)

/-- The part of the grammar whose routine does a task. Calls of functions have a routine apart. -/
def Task.routine : Task → Option Category
  | .read category => some category
  | .apply _ => none

/-- A routine that waits for the result of the routine that it has called. -/
inductive Frame where
  /-- A sum or a product that waits for its first operand. -/
  | first (level : Level)
  /-- A sum or a product that goes on with an operator behind what has been joined. -/
  | further (level : Level) (operator : Operator) (left : Reading)
  | base
  | exponent (base : Reading)
  /-- An operand without a minus sign. -/
  | plain
  | negative
  | group
  /-- A primary that waits for the call of a function. -/
  | applied (name : String)
  /-- A call with the arguments before, and with the place where the one that is read begins. -/
  | argument (function : Elementary) (name : String) (earlier : List (Expr × Nat)) (start : Nat)

namespace Frame

def task : Frame → Task
  | first level | further level _ _ => .read (.joined level)
  | base | exponent _ => .read .power
  | plain | negative => .read .operand
  | group | applied _ => .read .primary
  | argument _ name _ _ => .apply name

def awaited : Frame → Task
  | first level | further level _ _ => .read level.operand
  | base => .read .operand
  | exponent _ => .read .power
  | plain | negative => .read .primary
  | group | argument _ _ _ _ => .read .sum
  | applied name => .apply name

/-- How many levels the waiting routine has opened and not yet closed. -/
def levels : Frame → Nat
  | first .additive | further .additive _ _ | exponent _ => 1
  | _ => 0

/-- Where the turn of its loop began that the waiting routine is in. -/
def turn : Frame → Option Nat
  | further _ _ left => some left.after.position
  | argument _ _ _ start => some start
  | _ => none

end Frame

def opened (stack : List Frame) : Nat := (stack.map Frame.levels).sum

theorem opened_cons (frame : Frame) (stack : List Frame) :
    opened (frame :: stack) = frame.levels + opened stack := rfl

/-! ### The machine -/

/-- A moment of a parse. Of the waiting routines the innermost comes first. -/
inductive Machine where
  | entering (task : Task) (state : Counters) (stack : List Frame)
  | leaving (reading : Reading) (stack : List Frame)
  | ended (outcome : Except Halt (Expr × Nat))

def proceed {α : Type} (result : Except Halt α) (next : α → Machine) : Machine :=
  match result with
  | .ok value => next value
  | .error halt => .ended (.error halt)

def settle (result : Except Halt Reading) (stack : List Frame) : Machine :=
  proceed result fun reading => .leaving reading stack

def close (reading : Reading) : Except Halt Reading := do
  return { reading with after := ← ascend reading.after }

/-- Only sums are on a level of their own. -/
def openLevel : Level → Counters → Except Halt Counters
  | .additive, state => descend state
  | .multiplicative, state => .ok state

def closeLevel : Level → Reading → Except Halt Reading
  | .additive, reading => close reading
  | .multiplicative, reading => .ok reading

section

variable (tokens : List (Placed Token)) (maxNodes : Nat)

def applied (function : Elementary) (name : String) (trees : List (Expr × Nat))
    (after : Counters) : Except Halt Reading :=
  match trees with
  | [(argument, height)] => branch maxNodes (.call function argument) height after
  | trees => reject (.arityMismatch name Elementary.arity trees.length)

def negation (inner : Reading) : Except Halt Reading :=
  match inner.tree with
  | .literal value => .ok { inner with tree := .literal (-value) }
  | tree => do
    let minusOne ← leaf maxNodes (.literal (-1)) inner.after
    binary maxNodes .mul minusOne ⟨tree, inner.height, minusOne.after⟩

def enter (task : Task) (state : Counters) (stack : List Frame) : Machine :=
  match task with
  | .read (.joined level) =>
    proceed (openLevel level state) fun state =>
      .entering (.read level.operand) state (.first level :: stack)
  | .read .power => .entering (.read .operand) state (.base :: stack)
  | .read .operand =>
    match peek tokens state with
    | .operator .sub => .entering (.read .primary) (advance tokens state) (.negative :: stack)
    | _ => .entering (.read .primary) state (.plain :: stack)
  | .read .primary =>
    match peek tokens state with
    | .number value => settle (leaf maxNodes (.literal value) (advance tokens state)) stack
    | .openParen => .entering (.read .sum) (advance tokens state) (.group :: stack)
    | .name name =>
      match peek tokens (advance tokens state) with
      | .openParen => .entering (.apply name) (advance tokens state) (.applied name :: stack)
      | _ => settle (named maxNodes name (place tokens state) (advance tokens state)) stack
    | .closeParen => .ended (reject (fault tokens state .unexpectedClose))
    | .comma => .ended (reject (fault tokens state .unexpectedComma))
    | .operator operator => .ended (reject (fault tokens state (.unexpectedOperator operator)))
    | .finish => .ended (reject (fault tokens state .unexpectedEnd))
  | .apply name =>
    match Elementary.ofName? name with
    | none => .ended (reject (.unknownFunction name))
    | some function =>
      let inside := advance tokens state
      match peek tokens inside with
      | .closeParen => settle (applied maxNodes function name [] (advance tokens inside)) stack
      | _ =>
        .entering (.read .sum) inside (.argument function name [] inside.position :: stack)

/-- The head of the loop of a sum or a product. -/
def goOn (level : Level) (left : Reading) (stack : List Frame) : Machine :=
  match peek tokens left.after with
  | .operator operator =>
    if level.fits operator then
      .entering (.read level.operand) (advance tokens left.after)
        (.further level operator left :: stack)
    else settle (closeLevel level left) stack
  | _ => settle (closeLevel level left) stack

/-- How a waiting routine goes on with the result. -/
def resume (frame : Frame) (reading : Reading) (stack : List Frame) : Machine :=
  match frame with
  | .first level => goOn tokens level reading stack
  | .further level operator left =>
    proceed (binary maxNodes operator left reading) fun joined => goOn tokens level joined stack
  | .base =>
    match peek tokens reading.after with
    | .operator .pow =>
      proceed (descend (advance tokens reading.after)) fun state =>
        .entering (.read .power) state (.exponent reading :: stack)
    | _ => .leaving reading stack
  | .exponent base => settle (close reading >>= binary maxNodes .pow base) stack
  | .plain | .applied _ => .leaving reading stack
  | .negative => settle (negation maxNodes reading) stack
  | .group =>
    match peek tokens reading.after with
    | .closeParen => .leaving { reading with after := advance tokens reading.after } stack
    | _ => .ended (reject (fault tokens reading.after .unclosedGroup))
  | .argument function name earlier _ =>
    let trees := earlier ++ [(reading.tree, reading.height)]
    let after := advance tokens reading.after
    match peek tokens reading.after with
    | .comma =>
      .entering (.read .sum) after (.argument function name trees after.position :: stack)
    | .closeParen => settle (applied maxNodes function name trees after) stack
    | _ => .ended (reject (fault tokens reading.after (.unclosedCall name)))

def step : Machine → Machine
  | .entering task state stack => enter tokens maxNodes task state stack
  | .leaving reading [] => .ended (complete tokens reading)
  | .leaving reading (frame :: stack) => resume tokens maxNodes frame reading stack
  | .ended outcome => .ended outcome

/-- A whole formula is a sum for which no routine waits. -/
def initial : Machine :=
  match peek tokens ⟨0, 0, 0⟩ with
  | .finish => .ended (reject (fault tokens ⟨0, 0, 0⟩ .emptyFormula))
  | _ => .entering (.read .sum) ⟨0, 0, 0⟩ []

def run (steps : Nat) : Machine := (step tokens maxNodes)^[steps] (initial tokens)

end

/-! ### Results and counters -/

def Stays (before after : Counters) : Prop :=
  after.position = before.position ∧ after.depth = before.depth

theorem Stays.trans {first second third : Counters} (h : Stays first second)
    (h' : Stays second third) : Stays first third :=
  ⟨h'.1.trans h.1, h'.2.trans h.2⟩

variable {tokens : List (Placed Token)} {maxNodes : Nat} {state after : Counters}
  {reading : Reading}

theorem countNode_stays (h : countNode maxNodes state = .ok after) : Stays state after := by
  rw [countNode] at h
  split at h
  · cases h
  · cases h
    exact ⟨rfl, rfl⟩

theorem leaf_stays {tree : Expr} (h : leaf maxNodes tree state = .ok reading) :
    Stays state reading.after := by
  obtain ⟨after, hafter, h⟩ := bind_eq_ok.mp h
  cases pure_eq_ok.mp h
  exact countNode_stays hafter

theorem branch_stays {tree : Expr} {height : Nat}
    (h : branch maxNodes tree height state = .ok reading) : Stays state reading.after := by
  obtain ⟨after, hafter, h⟩ := bind_eq_ok.mp h
  obtain ⟨above, -, h⟩ := bind_eq_ok.mp h
  cases pure_eq_ok.mp h
  exact countNode_stays hafter

theorem binary_stays {operator : Operator} {left right : Reading}
    (h : binary maxNodes operator left right = .ok reading) : Stays right.after reading.after :=
  branch_stays h

theorem named_stays {name : String} {place : Nat}
    (h : named maxNodes name place state = .ok reading) : Stays state reading.after := by
  rw [named] at h
  split at h
  · exact leaf_stays h
  · split at h
    · exact leaf_stays h
    · split at h <;> cases h

theorem applied_stays {function : Elementary} {name : String} {trees : List (Expr × Nat)}
    (h : applied maxNodes function name trees after = .ok reading) :
    Stays after reading.after := by
  match trees with
  | [(argument, height)] => exact branch_stays h
  | [] => cases h
  | _ :: _ :: _ => cases h

theorem negation_stays {inner : Reading} (h : negation maxNodes inner = .ok reading) :
    Stays inner.after reading.after := by
  rw [negation] at h
  split at h
  · cases h
    exact ⟨rfl, rfl⟩
  · obtain ⟨minusOne, hminus, h⟩ := bind_eq_ok.mp h
    have hjoined := binary_stays h
    exact (leaf_stays hminus).trans hjoined

theorem descend_spec (h : descend state = .ok after) :
    after.position = state.position ∧ after.depth = state.depth + 1 ∧ after.depth ≤ maxNesting := by
  rw [descend] at h
  split at h
  · cases h
  · next hlimit =>
    cases h
    exact ⟨rfl, rfl, Nat.le_of_not_lt hlimit⟩

theorem ascend_spec (h : ascend state = .ok after) :
    after.position = state.position ∧ after.depth + 1 = state.depth := by
  rw [ascend] at h
  split at h
  · cases h
  · next depth hdepth =>
    cases h
    exact ⟨rfl, hdepth.symm⟩

theorem close_spec {inner : Reading} (h : close inner = .ok reading) :
    reading.after.position = inner.after.position ∧
      reading.after.depth + 1 = inner.after.depth := by
  obtain ⟨after, hafter, h⟩ := bind_eq_ok.mp h
  cases pure_eq_ok.mp h
  exact ascend_spec hafter

theorem openLevel_spec {level : Level} (h : openLevel level state = .ok after) :
    after.position = state.position ∧ after.depth = state.depth + (Frame.first level).levels ∧
      (0 < (Frame.first level).levels → after.depth ≤ maxNesting) := by
  cases level with
  | additive =>
      obtain ⟨hposition, hdepth, hlimit⟩ := descend_spec h
      exact ⟨hposition, hdepth, fun _ => hlimit⟩
  | multiplicative =>
      cases h
      exact ⟨rfl, rfl, fun hpos => absurd hpos (Nat.lt_irrefl 0)⟩

theorem closeLevel_spec {level : Level} {inner : Reading}
    (h : closeLevel level inner = .ok reading) :
    reading.after.position = inner.after.position ∧
      reading.after.depth + (Frame.first level).levels = inner.after.depth := by
  cases level with
  | additive => exact close_spec h
  | multiplicative =>
      cases h
      exact ⟨rfl, rfl⟩

theorem forward_or_advance_eq (tokens : List (Placed Token)) (state : Counters) :
    Forward tokens state (advance tokens state) ∨ advance tokens state = state := by
  by_cases hlt : state.position < tokens.length
  · rw [advance, if_pos hlt]
    exact .inl ⟨Nat.lt_succ_self _, hlt⟩
  · exact .inr (if_neg hlt)

theorem advance_forward {token : Token} (hpeek : peek tokens state = token)
    (htoken : token ≠ .finish) : Forward tokens state (advance tokens state) := by
  by_cases hlt : state.position < tokens.length
  · rw [advance, if_pos hlt]
    exact ⟨Nat.lt_succ_self _, hlt⟩
  · rw [peek, List.getElem?_eq_none (Nat.le_of_not_lt hlt)] at hpeek
    exact absurd hpeek.symm htoken

/-! ### Steps -/

/-- The place of a routine among those that call one another without reading a token. -/
def Task.reach : Task → Nat
  | .apply _ => 5
  | .read (.joined .additive) => 4
  | .read (.joined .multiplicative) => 3
  | .read .power => 2
  | .read .operand => 1
  | .read .primary => 0

/--
What a step can do. A routine that has been called calls another one or answers, and one to which a
result comes back calls again or returns. A call that reads no token goes to a routine with less
reach, and a turn of a loop begins where the parse stands when it is begun.
-/
inductive Transition (tokens : List (Placed Token)) : Machine → Machine → Prop
  | calls {state after : Counters} {stack : List Frame} (frame : Frame)
      (hmoves : Forward tokens state after ∨
        after.position = state.position ∧ frame.awaited.reach < frame.task.reach)
      (hdepth : after.depth = state.depth + frame.levels)
      (hlimit : 0 < frame.levels → after.depth ≤ maxNesting)
      (hturn : ∀ start ∈ frame.turn, start ≤ after.position) :
      Transition tokens (.entering frame.task state stack)
        (.entering frame.awaited after (frame :: stack))
  | answers {task : Task} {state : Counters} {reading : Reading} {stack : List Frame}
      (hmoves : Forward tokens state reading.after) (hdepth : reading.after.depth = state.depth) :
      Transition tokens (.entering task state stack) (.leaving reading stack)
  | recalls {reading : Reading} {frame : Frame} {after : Counters} {stack : List Frame}
      (again : Frame)
      (htask : again.task = frame.task) (hmoves : Forward tokens reading.after after)
      (hdepth : after.depth + frame.levels = reading.after.depth + again.levels)
      (hlimit : frame.levels < again.levels → after.depth ≤ maxNesting)
      (hturn : ∀ start ∈ again.turn, reading.after.position ≤ start ∧ start ≤ after.position) :
      Transition tokens (.leaving reading (frame :: stack))
        (.entering again.awaited after (again :: stack))
  | returns {inner reading : Reading} {frame : Frame} {stack : List Frame}
      (hmoves : Forward tokens inner.after reading.after ∨
        reading.after.position = inner.after.position)
      (hdepth : reading.after.depth + frame.levels = inner.after.depth) :
      Transition tokens (.leaving inner (frame :: stack)) (.leaving reading stack)
  | ends (machine : Machine) (outcome : Except Halt (Expr × Nat)) :
      Transition tokens machine (.ended outcome)

variable {machine : Machine} {stack : List Frame} {frame : Frame}

theorem Transition.proceed {α : Type} {result : Except Halt α} {next : α → Machine}
    (h : ∀ value, result = .ok value → Transition tokens machine (next value)) :
    Transition tokens machine (Activation.proceed result next) := by
  cases result with
  | ok value => exact h value rfl
  | error halt => exact .ends _ _

theorem transition_leaf {task : Task} {result : Except Halt Reading}
    (hforward : Forward tokens state (advance tokens state))
    (h : ∀ reading, result = .ok reading → Stays (advance tokens state) reading.after) :
    Transition tokens (.entering task state stack) (settle result stack) := by
  refine .proceed fun reading hreading => ?_
  obtain ⟨hposition, hdepth⟩ := h reading hreading
  obtain ⟨hahead, hwithin⟩ := hforward
  exact .answers ⟨by omega, by omega⟩ (hdepth.trans depth_advance)

theorem transition_call {task : Task} (frame : Frame) (htask : frame.task = task)
    (hlevels : frame.levels = 0) (hturn : frame.turn = none)
    (hmoves : Forward tokens state after ∨
      after.position = state.position ∧ frame.awaited.reach < task.reach)
    (hdepth : after.depth = state.depth) :
    Transition tokens (.entering task state stack)
      (.entering frame.awaited after (frame :: stack)) := by
  subst htask
  refine .calls frame hmoves ?_ (fun hpos => ?_) (by simp [hturn])
  · rw [hdepth, hlevels, Nat.add_zero]
  · exact absurd hpos (by omega)

theorem transition_enter (task : Task) (state : Counters) (stack : List Frame) :
    Transition tokens (.entering task state stack) (enter tokens maxNodes task state stack) := by
  match task with
  | .read (.joined level) =>
      refine .proceed fun opened hopened => ?_
      obtain ⟨hposition, hdepth, hlimit⟩ := openLevel_spec hopened
      refine .calls (.first level) (.inr ⟨hposition, ?_⟩) hdepth hlimit (by simp [Frame.turn])
      cases level <;> decide
  | .read .power => exact transition_call .base rfl rfl rfl (.inr ⟨rfl, by decide⟩) rfl
  | .read .operand =>
      rw [enter]
      split
      · next hpeek =>
        have hforward := advance_forward hpeek (by simp)
        exact transition_call .negative rfl rfl rfl (.inl hforward) depth_advance
      · exact transition_call .plain rfl rfl rfl (.inr ⟨rfl, by decide⟩) rfl
  | .read .primary =>
      rw [enter]
      split
      · next value hpeek =>
        exact transition_leaf (advance_forward hpeek (by simp)) fun _ h => leaf_stays h
      · next hpeek =>
        have hforward := advance_forward hpeek (by simp)
        exact transition_call .group rfl rfl rfl (.inl hforward) depth_advance
      · next name hpeek =>
        have hforward := advance_forward hpeek (by simp)
        split
        · exact transition_call (.applied name) rfl rfl rfl (.inl hforward) depth_advance
        · exact transition_leaf hforward fun _ h => named_stays h
      all_goals exact .ends _ _
  | .apply name =>
      rw [enter]
      split
      · exact .ends _ _
      · next function hfunction =>
        dsimp only
        split
        · exact .ends _ _
        · refine .calls (.argument function name [] _) ?_ depth_advance
            (fun hpos => absurd hpos (Nat.lt_irrefl 0)) ?_
          · refine (forward_or_advance_eq tokens state).imp_right fun heq => ?_
            exact ⟨by rw [heq], by simp [Frame.awaited, Frame.task, Task.reach]⟩
          · rintro start ⟨⟩
            exact Nat.le_refl _

theorem levels_further (level : Level) (operator : Operator) (left : Reading) :
    (Frame.further level operator left).levels = (Frame.first level).levels := by
  cases level <;> rfl

theorem transition_goOn {level : Level} {left : Reading}
    (htask : frame.task = .read (.joined level))
    (hlevels : frame.levels = (Frame.first level).levels) (hleft : Stays reading.after left.after) :
    Transition tokens (.leaving reading (frame :: stack)) (goOn tokens level left stack) := by
  obtain ⟨hposition, hdepth⟩ := hleft
  have hleaves : Transition tokens (.leaving reading (frame :: stack))
      (settle (closeLevel level left) stack) := by
    refine .proceed fun closed hclosed => ?_
    obtain ⟨hposition', hdepth'⟩ := closeLevel_spec hclosed
    exact .returns (.inr (hposition'.trans hposition)) (by rw [hlevels, hdepth', hdepth])
  rw [goOn]
  split
  · next operator hpeek =>
    split
    · have hlevels' := levels_further level operator left
      obtain ⟨hahead, hwithin⟩ := advance_forward hpeek (by simp)
      refine .recalls (.further level operator left) htask.symm ⟨by omega, hwithin⟩ ?_
        (fun hlt => absurd hlt (by omega)) ?_
      · rw [depth_advance, hdepth, hlevels, hlevels']
      · rintro start ⟨⟩
        omega
    · exact hleaves
  · exact hleaves

theorem transition_resume (frame : Frame) (reading : Reading) (stack : List Frame) :
    Transition tokens (.leaving reading (frame :: stack))
      (resume tokens maxNodes frame reading stack) := by
  cases frame with
  | first level => exact transition_goOn rfl rfl ⟨rfl, rfl⟩
  | further level operator left =>
      refine .proceed fun joined hjoined => ?_
      exact transition_goOn rfl (levels_further _ _ _) (binary_stays hjoined)
  | base =>
      rw [resume]
      split
      · next hpeek =>
        obtain ⟨hahead, hwithin⟩ := advance_forward hpeek (by simp)
        refine .proceed fun opened hopened => ?_
        obtain ⟨hposition, hdepth, hlimit⟩ := descend_spec hopened
        rw [depth_advance] at hdepth
        exact .recalls (.exponent reading) rfl ⟨by omega, by omega⟩ hdepth
          (fun _ => hlimit) (by simp [Frame.turn])
      · exact .returns (.inr rfl) rfl
  | exponent base =>
      refine .proceed fun raised hraised => ?_
      obtain ⟨closed, hclosed, hbinary⟩ := bind_eq_ok.mp hraised
      obtain ⟨hposition, hdepth⟩ := close_spec hclosed
      obtain ⟨hposition', hdepth'⟩ := binary_stays hbinary
      exact .returns (.inr (hposition'.trans hposition)) ((congrArg (· + 1) hdepth').trans hdepth)
  | plain => exact .returns (.inr rfl) rfl
  | negative =>
      refine .proceed fun negated hnegated => ?_
      obtain ⟨hposition, hdepth⟩ := negation_stays hnegated
      exact .returns (.inr hposition) hdepth
  | group =>
      rw [resume]
      split
      · next hpeek => exact .returns (.inl (advance_forward hpeek (by simp))) depth_advance
      · exact .ends _ _
  | applied name => exact .returns (.inr rfl) rfl
  | argument function name earlier start =>
      rw [resume]
      split
      · next hpeek =>
        have hforward := advance_forward hpeek (by simp)
        refine .recalls (.argument function name _ _) rfl hforward depth_advance
          (fun hlt => absurd hlt (Nat.lt_irrefl 0)) ?_
        rintro start ⟨⟩
        exact ⟨hforward.1.le, Nat.le_refl _⟩
      · next hpeek =>
        obtain ⟨hahead, hwithin⟩ := advance_forward hpeek (by simp)
        refine .proceed fun called hcalled => ?_
        obtain ⟨hposition, hdepth⟩ := applied_stays hcalled
        exact .returns (.inl ⟨by omega, by omega⟩) (hdepth.trans depth_advance)
      · exact .ends _ _

/-- Every step is a transition. -/
theorem transition_step (maxNodes : Nat) (machine : Machine) :
    Transition tokens machine (step tokens maxNodes machine) := by
  match machine with
  | .entering task state stack => exact transition_enter task state stack
  | .leaving reading [] => exact .ends _ _
  | .leaving reading (frame :: stack) => exact transition_resume frame reading stack
  | .ended outcome => exact .ends _ _

end Waveform.Formula.Parser.Counting.Activation
