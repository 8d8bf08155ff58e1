import Mathlib.Logic.Relation
import SolTrace.Proofs.Session.Undefined
import SolTrace.Session
/-!
Listings of variables: a session answers with the values that the applied step has by itself,
however the step was reached and whatever was asked for before. As long as the account stays the
same, no slot is fetched twice.
-/
set_option autoImplicit false

namespace SolTrace

/-- The variables of a step with their values, in the order of the step's assignments. -/
def Step.listing (provider : Provider) (block : Nat) (nocache : Bool) (scope : VariableScope)
    (step : Step) : List (String × Value) :=
  (step.assignments.filter fun assignment => assignment.var.state == (scope == .globals)).map
    (step.entry provider block nocache)

namespace Session

open State (Faithful FetchedOnce KeptByReads)

/-! ### Moves -/

/-- One move of a session: a step, a change of the direction or of the breakpoints, a listing. -/
inductive Move (provider : Provider) : Session → Session → Prop
  | step (session : Session) : Move provider session session.step.2
  | turn (session : Session) (direction : Direction) :
      Move provider session (session.setDirection direction)
  | mark (session : Session) (breakpoints : Breakpoints) :
      Move provider session (session.setBreakpoints breakpoints)
  | list (session : Session) (scope : VariableScope) :
      Move provider session (session.values provider scope).2

/-- A move that stays at the account. -/
def Stay (provider : Provider) (session next : Session) : Prop :=
  Move provider session next ∧ next.state.address = session.state.address

/-- What a session can be told to do. -/
inductive Operation
  | step
  | reverse
  | direct (direction : Direction)
  | resume
  | mark (breakpoints : Breakpoints)
  | list (scope : VariableScope)

def perform (provider : Provider) (session : Session) : Operation → Session
  | .step => session.step.2
  | .reverse => session.reverse
  | .direct direction => session.setDirection direction
  | .resume => session.resume.2
  | .mark breakpoints => session.setBreakpoints breakpoints
  | .list scope => (session.values provider scope).2

variable {provider : Provider} {block : Nat} {nocache : Bool}

theorem resumeWithin_moves (count : Nat) :
    ∀ session : Session,
      Relation.ReflTransGen (Move provider) session (resumeWithin count session).2 := by
  induction count with
  | zero => exact fun _ => .refl
  | succ count ih =>
      intro session
      have first : Relation.ReflTransGen (Move provider) session session.step.2 :=
        .single (.step session)
      unfold resumeWithin
      simp only
      split
      · exact first
      · split
        · exact first
        · exact first.trans (ih session.step.2)

/-- Every operation is a sequence of moves. To go on to a breakpoint takes many. -/
theorem perform_moves (session : Session) (operation : Operation) :
    Relation.ReflTransGen (Move provider) session (session.perform provider operation) := by
  cases operation with
  | step => exact .single (.step session)
  | reverse => exact .single (.turn session _)
  | direct direction => exact .single (.turn session direction)
  | resume => exact resumeWithin_moves _ session
  | mark breakpoints => exact .single (.mark session breakpoints)
  | list scope => exact .single (.list session scope)

theorem foldl_moves (operations : List Operation) :
    ∀ session : Session, Relation.ReflTransGen (Move provider) session
      (operations.foldl (perform provider) session) := by
  induction operations with
  | nil => exact fun _ => .refl
  | cons operation operations ih =>
      exact fun session => (perform_moves session operation).trans (ih _)

/-! ### What moves keep -/

/-- Whether the state shows the applied step, with a cache of what the chain says. -/
structure Sound (provider : Provider) (block : Nat) (nocache : Bool) (session : Session) :
    Prop where
  faithful : session.state.Faithful provider block nocache
  shows : ∀ step, session.current? = some step → session.state.Shows step

/-- A step applies the step at the cursor, if there is one. -/
theorem step_cases (session : Session) :
    session.step.2 = session ∨ ∃ step, session.step.2.current? = some step ∧
      session.step.2.state = session.state.applyStep step := by
  unfold Session.step
  cases here : session.steps[session.cursor]? with
  | none => exact Or.inl rfl
  | some step => exact Or.inr ⟨step, here, rfl⟩

@[simp] theorem setDirection_state (session : Session) (direction : Direction) :
    (session.setDirection direction).state = session.state := by
  unfold setDirection
  split <;> rfl

@[simp] theorem setDirection_current (session : Session) (direction : Direction) :
    (session.setDirection direction).current? = session.current? := by
  unfold setDirection
  split <;> rfl

/-- The answer to a listing, and what it leaves behind. -/
theorem Sound.values {property : State → Prop} (kept : KeptByReads provider property)
    {session : Session} (sound : Sound provider block nocache session)
    (holds : property session.state) (scope : VariableScope) :
    ∃ after, session.values provider scope =
        (session.current?.elim [] (Step.listing provider block nocache scope),
          { session with state := after }) ∧
      Sound provider block nocache { session with state := after } ∧
      after.address = session.state.address ∧ property after := by
  unfold Session.values
  cases current : session.current? with
  | none => exact ⟨session.state, rfl, sound, rfl, holds⟩
  | some step =>
      have shows := sound.shows step current
      obtain ⟨after, run, faithful, shown, holds⟩ := State.decodeAll_entries kept
        (step.assignments.filter fun assignment => assignment.var.state == (scope == .globals))
        sound.faithful shows holds
      refine ⟨after, ?_, ⟨faithful, ?_⟩, shown.address.trans shows.address.symm, holds⟩
      · simp only [run, Option.elim_some, Step.listing]
      · intro other same
        have same : session.current? = some other := same
        rw [current] at same
        cases same
        exact shown

theorem Sound.move {session next : Session} (sound : Sound provider block nocache session)
    (moved : Move provider session next) : Sound provider block nocache next := by
  cases moved with
  | step =>
      rcases step_cases session with same | ⟨step, current, state⟩
      · rwa [same]
      · refine ⟨state ▸ sound.faithful.apply step, ?_⟩
        intro other same
        rw [current] at same
        cases same
        exact state ▸ ⟨rfl, rfl⟩
  | turn direction =>
      exact ⟨by simpa using sound.faithful, fun step current => by
        simpa using sound.shows step (by simpa using current)⟩
  | mark breakpoints => exact ⟨sound.faithful, sound.shows⟩
  | list scope =>
      obtain ⟨after, answered, sound, _⟩ := sound.values State.keptByReads_true trivial scope
      rwa [answered]

theorem Sound.moves {session next : Session} (sound : Sound provider block nocache session)
    (moves : Relation.ReflTransGen (Move provider) session next) :
    Sound provider block nocache next := by
  induction moves with
  | refl => exact sound
  | tail _ moved ih => exact ih.move moved

/-- As long as the account stays the same, no slot is fetched twice. -/
theorem fetchedOnce_stay {session next : Session} {before : List StorageRead}
    (sound : Sound provider block false session) (stay : Stay provider session next)
    (once : FetchedOnce provider before session.state) :
    FetchedOnce provider before next.state := by
  obtain ⟨moved, address⟩ := stay
  cases moved with
  | step =>
      rcases step_cases session with same | ⟨step, _, state⟩
      · rwa [same]
      · rw [state] at address ⊢
        have same : session.state.address = some step.address := address.symm
        obtain ⟨fetched, reads, distinct, kept⟩ := once
        refine ⟨fetched, reads, distinct, ?_⟩
        simpa [State.applyStep, State.apply, same] using kept
  | turn direction => simpa using once
  | mark breakpoints => exact once
  | list scope =>
      obtain ⟨after, answered, _, _, _, once⟩ := sound.values
        (State.fetchedOnce_keptByReads before) ⟨sound.faithful.mode, once⟩ scope
      rwa [answered]

theorem Sound.start (provider : Provider) (sources : Sources) (transaction : Transaction)
    (steps : List Step) (nocache : Bool) {number : Nat}
    (mined : transaction.block = some number) :
    ∃ session, Session.start sources transaction steps nocache = .ok session ∧
      Sound provider (number - 1) nocache session := by
  unfold Session.start
  rw [mined]
  refine ⟨_, rfl, ⟨rfl, rfl, ?_⟩, ?_⟩
  · intro account deployed
    cases deployed
  · intro step current
    cases current

end Session

open Session in
/-- In a session every listing gives the values at the applied step, told by the step and the chain
alone. A variable is shown as undefined if its own decoding fails, and if a word on the stack points
to it in calldata, of which nothing is decoded; the others are as they are without it. As long as
the account stays the same, no slot is fetched twice with success. -/
theorem listing_transparent (provider : Provider) (sources : Sources) (transaction : Transaction)
    (steps : List Step) (nocache : Bool) (number : Nat)
    (mined : transaction.block = some number) :
    ∃ session, Session.start sources transaction steps nocache = .ok session ∧
      ∀ operations : List Operation,
        let now := operations.foldl (perform provider) session
        (∀ scope, (now.values provider scope).1 =
          now.current?.elim [] (Step.listing provider (number - 1) nocache scope)) ∧
        (∀ step, now.current? = some step → ∀ assignment,
          (step.entry provider (number - 1) nocache assignment).2 = .undefined ↔
            (∃ error, step.value provider (number - 1) nocache assignment = .error error) ∨
              step.PointsToCalldata assignment) ∧
        (nocache = false → ∀ later, Relation.ReflTransGen (Stay provider) now later →
          ∃ fetched, later.state.reads = fetched ++ now.state.reads ∧
            (fetched.filter (State.Succeeds provider)).Nodup) := by
  obtain ⟨session, started, sound⟩ := Sound.start provider sources transaction steps nocache mined
  refine ⟨session, started, fun operations => ?_⟩
  have sound := sound.moves (foldl_moves operations session)
  refine ⟨?_, ?_, ?_⟩
  · intro scope
    obtain ⟨after, answered, _⟩ := sound.values State.keptByReads_true trivial scope
    rw [answered]
  · intro step _ assignment
    exact step.entry_undefined provider (number - 1) nocache assignment
  · rintro rfl later stays
    have once : Sound provider (number - 1) false later ∧
        State.FetchedOnce provider (operations.foldl (perform provider) session).state.reads
          later.state := by
      induction stays with
      | refl => exact ⟨sound, State.FetchedOnce.start provider _⟩
      | tail _ stay ih => exact ⟨ih.1.move stay.1, fetchedOnce_stay ih.1 stay ih.2⟩
    obtain ⟨_, fetched, reads, distinct, _⟩ := once
    exact ⟨fetched, reads, distinct⟩

namespace Sample

/-- A chain that has the word 7 in all slots but one, which it cannot read. -/
def chain : Provider where
  transaction hash := .error (.unresolvedTarget hash)
  trace _ := .error (.provider "no trace")
  code _ := .error (.provider "no code")
  storage _ slot _ := if slot = 1 then .error (.provider "no storage") else .ok 7

def stateVariable (name : String) (slot : Word) : Assignment where
  var := ⟨slot.toNat, name, .storage, .elementary "uint256", 10, true, .mutable, none⟩
  location := .storage slot 0

def listed (account : Address) : Step where
  kind := .line
  calls := []
  assignments := [stateVariable "first" 0, stateVariable "broken" 1, stateVariable "last" 2]
  file := "Counter.sol"
  range := default
  node := 4
  address := .deployed account
  snapshot := .empty
  index := 0

/-- A byte string in calldata that the only word on the stack points to. -/
def argument : Assignment where
  var := ⟨5, "data", .calldata, .elementary "bytes", 12, false, .mutable, none⟩
  location := .stack 0

def receiving : Step :=
  { listed 0x10 with assignments := [argument], snapshot := ⟨[0x44], [], ∅⟩ }

end Sample

/-- There and back again between two accounts, with a listing on the way: the variable that cannot
be read leaves the others as they are, and is the only one that is undefined. -/
theorem listing_transparent_there_and_back :
    ∃ session, Session.start ∅ ⟨0, some 0x10, [], some 6⟩
        [Sample.listed 0x10, Sample.listed 0x20] false = .ok session ∧
      let now := [.step, .list .globals, .step, .reverse, .step].foldl
        (Session.perform Sample.chain) session
      (now.values Sample.chain .globals).1 =
          [("first", .uint 7), ("broken", .undefined), ("last", .uint 7)] ∧
        ∃ error, (Sample.listed 0x10).value Sample.chain 5 false
          (Sample.stateVariable "broken" 1) = .error error := by
  obtain ⟨session, started, listings⟩ := listing_transparent Sample.chain ∅
    ⟨0, some 0x10, [], some 6⟩ [Sample.listed 0x10, Sample.listed 0x20] false 6 rfl
  refine ⟨session, started, ?_⟩
  obtain ⟨answered, undefined, -⟩ := listings [.step, .list .globals, .step, .reverse, .step]
  obtain rfl := Except.ok.inj started
  have fails := (undefined (Sample.listed 0x10) rfl (Sample.stateVariable "broken" 1)).mp rfl
  refine ⟨answered .globals, fails.resolve_right ?_⟩
  rintro ⟨inside, -⟩
  cases inside

/-- A variable in calldata is shown as undefined, though its own decoding does not fail. -/
theorem listing_shows_calldata :
    ∃ session, Session.start ∅ ⟨0, some 0x10, [], some 6⟩ [Sample.receiving] false = .ok session ∧
      let now := session.step.2
      now.current? = some Sample.receiving ∧
        (now.values Sample.chain .locals).1 = [("data", .undefined)] ∧
        Sample.receiving.value Sample.chain 5 false Sample.argument = .ok .undefined := by
  refine ⟨_, rfl, rfl, rfl, ?_⟩
  rw [Step.value_undefined]
  exact ⟨rfl, 0, rfl, by decide⟩

end SolTrace
