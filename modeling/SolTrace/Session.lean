import SolTrace.Contract.Basic
import SolTrace.State.Decode
/-!
Sessions: going through the steps of a transaction in either direction, with breakpoints.
-/
set_option autoImplicit false

namespace SolTrace

inductive Direction
  | forward
  | backward
deriving Repr, DecidableEq

def Direction.opposite : Direction → Direction
  | .forward => .backward
  | .backward => .forward

def Direction.name : Direction → String
  | .forward => "Forward"
  | .backward => "Backward"

/-- Which variables are asked for: those of functions, or those of contracts. -/
inductive VariableScope
  | locals
  | globals
deriving Repr, DecidableEq

/-- Lines, counted from one, by the name of their file. -/
abbrev Breakpoints := Std.ExtTreeMap String (List Nat)

structure Session where
  sources : Sources
  transaction : Transaction
  steps : Array Step
  breakpoints : Breakpoints
  direction : Direction
  /-- The step that is applied next. -/
  cursor : Nat
  /-- The step that has been applied last. -/
  applied : Option Nat
  state : State

namespace Session

/-- A session before its first step. Storage is read as of the end of the block before the
transaction's. -/
def start (sources : Sources) (transaction : Transaction) (steps : List Step) (nocache : Bool) :
    Except Error Session :=
  match transaction.block with
  | none => .error (.pendingTransaction transaction.hash)
  | some block =>
      .ok {
        sources
        transaction
        steps := steps.toArray
        breakpoints := ∅
        direction := .forward
        cursor := 0
        applied := none
        state := .new (block - 1) nocache }

/-- The applied step. -/
def current? (session : Session) : Option Step :=
  session.applied.bind fun index => session.steps[index]?

/-- The cursor after a step has been applied, or that no step is left in the direction. -/
def next? (direction : Direction) (cursor count : Nat) : Option Nat :=
  match direction with
  | .forward => if cursor + 1 < count then some (cursor + 1) else none
  | .backward => if 0 < cursor then some (cursor - 1) else none

/-- Where the cursor comes to rest when no step is left. -/
def final (direction : Direction) (cursor : Nat) : Nat :=
  match direction with
  | .forward => cursor + 1
  | .backward => cursor

/-- Applies the step at the cursor and moves on. The answer is whether the end of the steps in the
current direction is reached. -/
def step (session : Session) : Bool × Session :=
  match session.steps[session.cursor]? with
  | none => (true, session)
  | some step =>
      let next := next? session.direction session.cursor session.steps.size
      (next.isNone,
        { session with
          state := session.state.applyStep step
          applied := some session.cursor
          cursor := next.getD (final session.direction session.cursor) })

/-- Changes the direction. The next step is then the neighbour of the applied one. -/
def setDirection (session : Session) (direction : Direction) : Session :=
  if direction = session.direction then session
  else
    { session with
      direction
      cursor :=
        match session.applied, direction with
        | none, _ => session.cursor
        | some index, .forward => index + 1
        | some index, .backward => index - 1 }

def reverse (session : Session) : Session :=
  session.setDirection session.direction.opposite

def setBreakpoints (session : Session) (breakpoints : Breakpoints) : Session :=
  { session with breakpoints }

/-- Whether a step starts on a line with a breakpoint. -/
def isBreakpoint (session : Session) (step : Step) : Bool :=
  step.line?.any fun line => (session.breakpoints[step.file]?).any fun lines => lines.contains line

/-- Goes on for at most a number of steps, to the end or to a breakpoint. -/
def resumeWithin : Nat → Session → Bool × Session
  | 0, session => (true, session)
  | count + 1, session =>
      let (ended, session) := session.step
      if ended then (true, session)
      else if session.current?.any session.isBreakpoint then (false, session)
      else resumeWithin count session

/-- Goes on until a step on a breakpoint is applied. The answer is whether the end was reached
instead. No session takes more steps than there are. -/
def resume (session : Session) : Bool × Session :=
  resumeWithin (session.steps.size + 1) session

/-- The text of the line that the applied step starts on. -/
def line? (session : Session) : Option String := do
  let step ← session.current?
  (← session.sources[step.file]?).line? (← step.line?)

/-- The variables of the applied step with their values. -/
def values (session : Session) (provider : Provider) (scope : VariableScope) :
    List (String × Value) × Session :=
  match session.current? with
  | none => ([], session)
  | some step =>
      let wanted := step.assignments.filter fun assignment =>
        assignment.var.state == (scope == .globals)
      let (values, state) := (State.decodeAll provider wanted).run session.state
      (values, { session with state })

end Session

end SolTrace
