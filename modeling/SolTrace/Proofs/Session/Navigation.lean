import SolTrace.Proofs.Session.Listing
/-!
Going through the steps. Whatever a session is told to do, its cursor stays next to the applied step
in the current direction, so that no step is skipped and none is applied again before the end.
-/
set_option autoImplicit false

namespace SolTrace

namespace Direction

/-- The last one of `count` steps. -/
def last (count : Nat) : Direction → Nat
  | .forward => count - 1
  | .backward => 0

/-- The step after one of `count` steps. Nothing comes after the last step but itself. -/
def neighbour (count : Nat) : Direction → Nat → Nat
  | .forward, index => if index + 1 < count then index + 1 else index
  | .backward, index => index - 1

end Direction

namespace Session

/-! ### The cursor -/

/-- The cursor beside an applied step. Backwards it does not go beyond the first step. -/
def beside : Direction → Nat → Nat
  | .forward, index => index + 1
  | .backward, index => index - 1

/-- Whether the cursor is beside the applied step, or at the first step if none is applied yet. -/
structure Placed (steps : Array Step) (session : Session) : Prop where
  whole : session.steps = steps
  fresh : session.applied = none → session.cursor = 0
  inside : ∀ index, session.applied = some index → index < steps.size
  cursor : ∀ index, session.applied = some index → session.cursor = beside session.direction index

/-- The step that comes next: the first one, and then the neighbour of the applied one. -/
def upcoming (session : Session) : Nat :=
  session.applied.elim 0 (session.direction.neighbour session.steps.size)

section

variable {steps : Array Step} {session : Session}

/-- At the end nothing is applied. -/
theorem step_past (past : session.steps.size ≤ session.cursor) :
    session.step = (true, session) := by
  rw [step, Array.getElem?_eq_none past]

/-- A step at the cursor leaves the cursor beside it, and is the last one if no other follows. -/
theorem next?_beside (direction : Direction) {cursor count : Nat} (here : cursor < count) :
    (next? direction cursor count).getD (final direction cursor) = beside direction cursor ∧
      ((next? direction cursor count).isNone = true ↔ cursor = direction.last count) := by
  cases direction with
  | forward =>
      show _ ∧ (_ ↔ cursor = count - 1)
      by_cases more : cursor + 1 < count
      · rw [next?, if_pos more]
        exact ⟨rfl, iff_of_false nofun (by omega)⟩
      · rw [next?, if_neg more]
        exact ⟨rfl, iff_of_true rfl (by omega)⟩
  | backward =>
      show _ ∧ (_ ↔ cursor = 0)
      by_cases more : 0 < cursor
      · rw [next?, if_pos more]
        exact ⟨rfl, iff_of_false nofun (by omega)⟩
      · obtain rfl : cursor = 0 := by omega
        exact ⟨rfl, iff_of_true rfl rfl⟩

/-- Before the end the step at the cursor is applied. -/
theorem step_applies (here : session.cursor < session.steps.size) :
    session.step.2.applied = some session.cursor ∧
      session.step.2.cursor = beside session.direction session.cursor ∧
      (session.step.1 = true ↔ session.cursor = session.direction.last session.steps.size) := by
  obtain ⟨cursor, ended⟩ := next?_beside session.direction here
  rw [step, Array.getElem?_eq_getElem here]
  exact ⟨rfl, cursor, ended⟩

@[simp] theorem step_steps (session : Session) : session.step.2.steps = session.steps := by
  unfold step
  split <;> rfl

@[simp] theorem step_direction (session : Session) :
    session.step.2.direction = session.direction := by
  unfold step
  split <;> rfl

@[simp] theorem step_breakpoints (session : Session) :
    session.step.2.breakpoints = session.breakpoints := by
  unfold step
  split <;> rfl

/-- The cursor is at the step that comes next, or past the last step, which is applied then. -/
theorem Placed.upcoming (placed : Placed steps session) (present : 0 < steps.size) :
    session.cursor < steps.size ∧ session.upcoming = session.cursor ∨
      session.cursor = steps.size ∧ session.direction = .forward ∧
        session.applied = some (steps.size - 1) ∧ session.upcoming = steps.size - 1 := by
  obtain ⟨same, fresh, inside, cursor⟩ := placed
  rw [Session.upcoming, same]
  cases applied : session.applied with
  | none =>
      have first := fresh applied
      left
      exact ⟨by omega, first.symm⟩
  | some index =>
      have bound := inside index applied
      have beside := cursor index applied
      cases direction : session.direction with
      | backward =>
          rw [direction] at beside
          left
          refine ⟨?_, beside.symm⟩
          rw [beside]
          exact Nat.lt_of_le_of_lt (Nat.sub_le index 1) bound
      | forward =>
          rw [direction] at beside
          have beside : session.cursor = index + 1 := beside
          rw [Option.elim_some, Direction.neighbour]
          by_cases more : index + 1 < steps.size
          · left
            rw [if_pos more]
            omega
          · right
            rw [if_neg more]
            have final : index = steps.size - 1 := by omega
            exact ⟨by omega, rfl, by rw [final], final⟩

/-- A step applies the one that comes next, and tells whether that is the last one. -/
theorem Placed.step (placed : Placed steps session) (present : 0 < steps.size) :
    session.step.2.applied = some session.upcoming ∧
      (session.step.1 = true ↔ session.upcoming = session.direction.last steps.size) := by
  rcases placed.upcoming present with ⟨here, next⟩ | ⟨past, direction, applied, next⟩
  · obtain ⟨applies, _, ended⟩ := step_applies (placed.whole ▸ here)
    rw [next, applies, ended, placed.whole]
    exact ⟨rfl, Iff.rfl⟩
  · have beyond : session.steps.size ≤ session.cursor := by simp [placed.whole, past]
    rw [step_past beyond, next, direction]
    exact ⟨applied, iff_of_true rfl rfl⟩

/-- A step leaves the cursor beside the step that it has applied. -/
theorem Placed.after (placed : Placed steps session) : Placed steps session.step.2 := by
  by_cases here : session.cursor < session.steps.size
  · obtain ⟨applies, beside, _⟩ := step_applies here
    constructor
    · rw [step_steps, placed.whole]
    · rw [applies]
      exact nofun
    · rw [applies]
      rintro index ⟨⟩
      rwa [← placed.whole]
    · rw [applies, step_direction]
      rintro index ⟨⟩
      exact beside
  · rwa [step_past (Nat.le_of_not_lt here)]

@[simp] theorem setDirection_steps (session : Session) (direction : Direction) :
    (session.setDirection direction).steps = session.steps := by
  unfold setDirection
  split <;> rfl

@[simp] theorem setDirection_applied (session : Session) (direction : Direction) :
    (session.setDirection direction).applied = session.applied := by
  unfold setDirection
  split <;> rfl

@[simp] theorem setDirection_direction (session : Session) (direction : Direction) :
    (session.setDirection direction).direction = direction := by
  unfold setDirection
  split
  · next same => exact same.symm
  · rfl

theorem setDirection_cursor {direction : Direction} (turns : direction ≠ session.direction) :
    (session.setDirection direction).cursor =
      session.applied.elim session.cursor (beside direction) := by
  unfold setDirection
  rw [if_neg turns]
  cases session.applied <;> cases direction <;> rfl

/-- Turning round puts the cursor on the other side of the applied step. -/
theorem Placed.turn (placed : Placed steps session) (direction : Direction) :
    Placed steps (session.setDirection direction) := by
  by_cases same : direction = session.direction
  · unfold setDirection
    rwa [if_pos same]
  · have cursor := setDirection_cursor same
    constructor
    · rw [setDirection_steps, placed.whole]
    · rw [setDirection_applied, cursor]
      intro none
      rw [none]
      exact placed.fresh none
    · rw [setDirection_applied]
      exact placed.inside
    · rw [setDirection_applied, setDirection_direction, cursor]
      intro index applied
      rw [applied, Option.elim_some]

theorem Placed.move {provider : Provider} {next : Session} (placed : Placed steps session)
    (moved : Move provider session next) : Placed steps next := by
  cases moved with
  | step => exact placed.after
  | turn direction => exact placed.turn direction
  | mark breakpoints => exact ⟨placed.whole, placed.fresh, placed.inside, placed.cursor⟩
  | list scope =>
      unfold values
      split
      · exact placed
      · exact ⟨placed.whole, placed.fresh, placed.inside, placed.cursor⟩

theorem Placed.moves {provider : Provider} {next : Session} (placed : Placed steps session)
    (moves : Relation.ReflTransGen (Move provider) session next) : Placed steps next := by
  induction moves with
  | refl => exact placed
  | tail _ moved ih => exact ih.move moved

/-- Whatever a session is told to do, its cursor stays beside the applied step. -/
theorem Placed.perform (placed : Placed steps session) (provider : Provider)
    (operations : List Operation) :
    Placed steps (operations.foldl (Session.perform provider) session) :=
  placed.moves (foldl_moves operations session)

theorem Placed.start (sources : Sources) (transaction : Transaction) (steps : List Step)
    (nocache : Bool) {session : Session}
    (started : Session.start sources transaction steps nocache = .ok session) :
    Placed steps.toArray session ∧ session.direction = .forward ∧ session.applied = none := by
  unfold Session.start at started
  split at started
  · cases started
  · cases started
    exact ⟨⟨rfl, fun _ => rfl, nofun, nofun⟩, rfl, rfl⟩

/-! ### Runs of steps -/

/-- The steps that are applied after each of some operations. -/
def trail (provider : Provider) : Session → List Operation → List (Option Nat)
  | _, [] => []
  | session, operation :: operations =>
      let next := session.perform provider operation
      next.applied :: trail provider next operations

theorem trail_append (provider : Provider) (first rest : List Operation) :
    ∀ session : Session, trail provider session (first ++ rest) =
      trail provider session first ++
        trail provider (first.foldl (Session.perform provider) session) rest := by
  induction first with
  | nil => exact fun _ => rfl
  | cons operation first ih =>
      intro session
      rw [List.cons_append, trail, trail, List.foldl_cons, ih]
      rfl

/-- Steps from the first one on are applied one after the other. -/
theorem trail_forward (provider : Provider) (placed : Placed steps session)
    (direction : session.direction = .forward) (fresh : session.applied = none) (count : Nat)
    (within : count ≤ steps.size) :
    trail provider session (List.replicate count .step) = (List.range count).map some ∧
      let after := (List.replicate count .step).foldl (Session.perform provider) session
      after.direction = .forward ∧ after.cursor = count := by
  induction count with
  | zero => exact ⟨rfl, direction, placed.fresh fresh⟩
  | succ count ih =>
      obtain ⟨applied, forward, cursor⟩ := ih (by omega)
      have before := placed.perform provider (List.replicate count .step)
      generalize reached : (List.replicate count Operation.step).foldl
        (Session.perform provider) session = now at forward cursor before
      have here : now.cursor < now.steps.size := by
        rw [cursor, before.whole]
        exact within
      obtain ⟨applies, beside, _⟩ := step_applies here
      rw [List.replicate_succ', trail_append, List.foldl_append, reached, applied,
        List.range_succ, List.map_append]
      refine ⟨?_, (step_direction now).trans forward, ?_⟩
      · show _ ++ [now.step.2.applied] = _
        rw [applies, cursor]
        rfl
      · show now.step.2.cursor = count + 1
        rw [beside, forward, cursor]
        rfl

/-- Steps back from an applied one are applied down to the first one. -/
theorem trail_backward (provider : Provider) (index : Nat) :
    ∀ {session : Session}, Placed steps session → session.direction = .backward →
      session.applied = some index →
      trail provider session (List.replicate index .step) =
        (List.range index).reverse.map some := by
  induction index with
  | zero => exact fun _ _ _ => rfl
  | succ index ih =>
      intro session placed direction applied
      have bound := placed.inside _ applied
      have cursor : session.cursor = index := by
        rw [placed.cursor _ applied, direction]
        rfl
      have here : session.cursor < session.steps.size := by
        rw [cursor, placed.whole]
        omega
      have applies : session.step.2.applied = some index := by
        rw [(step_applies here).1, cursor]
      have rest := ih placed.after ((step_direction session).trans direction) applies
      rw [List.replicate_succ, trail, List.range_succ, List.reverse_append, List.map_append]
      show session.step.2.applied :: trail provider session.step.2 _ = _
      rw [applies, rest]
      rfl

/-- Steps from the first one on, a reversal, and steps back to the first one. -/
theorem trail_there_and_back (provider : Provider) (placed : Placed steps session)
    (direction : session.direction = .forward) (fresh : session.applied = none) (count : Nat)
    (positive : 1 ≤ count) (within : count ≤ steps.size) :
    trail provider session
        (List.replicate count .step ++ .reverse :: List.replicate (count - 1) .step) =
      (List.range count).map some ++
        some (count - 1) :: (List.range (count - 1)).reverse.map some := by
  obtain ⟨there, forward, cursor⟩ := trail_forward provider placed direction fresh count within
  have before := placed.perform provider (List.replicate count .step)
  rw [trail_append, there]
  generalize (List.replicate count Operation.step).foldl (Session.perform provider) session = now
    at forward cursor before
  have applied : now.applied = some (count - 1) := by
    cases last : now.applied with
    | none =>
        have first := before.fresh last
        omega
    | some index =>
        have beside : now.cursor = index + 1 := by
          rw [before.cursor index last, forward]
          rfl
        congr 1
        omega
  have turned : now.reverse.applied = some (count - 1) :=
    (setDirection_applied now _).trans applied
  have backward : now.reverse.direction = .backward := by
    rw [reverse, setDirection_direction, forward]
    rfl
  rw [trail]
  show _ ++ now.reverse.applied :: trail provider now.reverse _ = _
  have back := trail_backward provider (count - 1) (before.turn _) backward turned
  rw [turned]
  exact congrArg _ (congrArg _ back)

end

end Session

open Session in
/-- Going through the steps of a transaction. Whatever a session was told to do, the cursor is
beside the applied step, whose state is shown; a step applies the neighbour of the applied one in
the current direction, the first step to begin with, and the last one again when it is reached;
the answer is whether that is the last step. Steps from the first one on are applied in their
order, and after a reversal in the opposite order. -/
theorem steps_neighbouring (provider : Provider) (sources : Sources) (transaction : Transaction)
    (steps : List Step) (nocache : Bool) (number : Nat)
    (mined : transaction.block = some number) (present : steps ≠ []) :
    ∃ session, Session.start sources transaction steps nocache = .ok session ∧
      (∀ operations : List Operation,
        let now := operations.foldl (perform provider) session
        (now.applied = none → now.cursor = 0) ∧
        (∀ index, now.applied = some index →
          (∃ step, steps[index]? = some step ∧ now.state.Shows step) ∧
            now.cursor = beside now.direction index) ∧
        now.step.2.applied =
          some (now.applied.elim 0 (now.direction.neighbour steps.length)) ∧
        (now.step.1 = true ↔ now.step.2.applied = some (now.direction.last steps.length))) ∧
      ∀ count, 1 ≤ count → count ≤ steps.length →
        trail provider session
            (List.replicate count .step ++ .reverse :: List.replicate (count - 1) .step) =
          (List.range count).map some ++
            some (count - 1) :: (List.range (count - 1)).reverse.map some := by
  obtain ⟨session, started, sound⟩ := Sound.start provider sources transaction steps nocache mined
  obtain ⟨placed, direction, fresh⟩ := Placed.start sources transaction steps nocache started
  have some : 0 < steps.toArray.size := by
    rw [List.size_toArray]
    exact List.length_pos_iff.mpr present
  refine ⟨session, started, fun operations => ?_, fun count positive within => ?_⟩
  · have placed := placed.perform provider operations
    have sound := sound.moves (foldl_moves operations session)
    generalize operations.foldl (perform provider) session = now at placed sound
    obtain ⟨applies, ended⟩ := placed.step some
    rw [upcoming, placed.whole, List.size_toArray] at applies ended
    refine ⟨placed.fresh, fun index applied => ⟨?_, placed.cursor index applied⟩, applies, ?_⟩
    · have bound : index < steps.length := by simpa using placed.inside index applied
      have current : now.current? = Option.some steps[index] := by
        simp [current?, applied, placed.whole, bound]
      exact ⟨steps[index], List.getElem?_eq_getElem bound, sound.shows _ current⟩
    · rw [ended, applies, Option.some_inj]
  · have within : count ≤ steps.toArray.size := by simpa using within
    exact trail_there_and_back provider placed direction fresh count positive within

/-- Two steps there and one back; and a session that is turned round at its first step stays
there. -/
theorem steps_neighbouring_there_and_back :
    ∃ session, Session.start ∅ ⟨0, some 0x10, [], some 6⟩
        [Sample.listed 0x10, Sample.listed 0x20] false = .ok session ∧
      session.trail Sample.chain [.step, .step, .reverse, .step] =
        [some 0, some 1, some 1, some 0] ∧
      let now := [.step, .reverse].foldl (Session.perform Sample.chain) session
      now.cursor = 0 ∧ now.step.1 = true ∧ now.step.2.applied = some 0 := by
  obtain ⟨session, started, steps, trails⟩ := steps_neighbouring Sample.chain ∅
    ⟨0, some 0x10, [], some 6⟩ [Sample.listed 0x10, Sample.listed 0x20] false 6 rfl nofun
  obtain ⟨-, cursor, applied, ended⟩ := steps [.step, .reverse]
  have back := trails 2 (by decide) (by decide)
  obtain rfl := Except.ok.inj started
  exact ⟨_, rfl, back, (cursor 0 rfl).2, ended.mpr applied, applied⟩

end SolTrace
