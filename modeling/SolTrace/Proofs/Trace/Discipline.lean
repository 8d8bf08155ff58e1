import SolTrace.Proofs.Trace.CallStack
import SolTrace.Proofs.Trace.Moments
/-!
The discipline of the call stack. From one step to the next, functions are entered and left at the
end only, and each runs in a context that is active. An exit leaves a function of the executing
context as long as more functions have been entered in it than left.
-/
set_option autoImplicit false

namespace SolTrace

/-! ### Functions and contexts -/

theorem idxOf_le_idxOf {ids : List Nat} (ascending : ids.Pairwise (· < ·)) {outer inner : Nat}
    (known : outer ∈ ids) (known' : inner ∈ ids) (order : outer ≤ inner) :
    ids.idxOf outer ≤ ids.idxOf inner := by
  by_contra later
  have bound := List.idxOf_lt_length_of_mem known
  have bound' := List.idxOf_lt_length_of_mem known'
  have less := List.pairwise_iff_getElem.mp ascending _ _ bound' bound (by omega)
  rw [List.getElem_idxOf, List.getElem_idxOf] at less
  omega

namespace Moment

/-- Whether the active functions of a step run in active contexts, the outer functions in the outer
contexts, and an exit leaves one of them. -/
structure Nested (moment : Moment) : Prop where
  active : ∀ frame ∈ moment.frames, frame.context ∈ moment.record.active
  ordered : moment.frames.Pairwise fun outer inner =>
    moment.record.active.idxOf outer.context ≤ moment.record.active.idxOf inner.context
  leaves : moment.step.kind = .functionOut → moment.step.calls ≠ []

theorem Valid.nested {moment : Moment} (valid : moment.Valid) (aligned : moment.record.Aligned) :
    moment.Nested := by
  refine ⟨valid.settled.live, ?_, ?_⟩
  · refine valid.settled.ordered.imp_of_mem ?_
    intro outer inner member member' order
    exact idxOf_le_idxOf aligned.ascending (valid.settled.live outer member)
      (valid.settled.live inner member') order
  · intro exits
    obtain ⟨outer, frame, frames, _, _⟩ := valid.exits exits
    rw [valid.calls, frames]
    simp

end Moment

/-- From one step to the next, the functions of contexts that have been left are gone and at most
one is entered; and at each step the active functions are nested in the active contexts. -/
theorem calls_discipline {registry : Registry} {inputs : TraceInputs} {steps : List Step}
    (reduced : reduce registry inputs = .ok steps) :
    ∃ alignment moments, Alignment.ofInputs registry inputs = .ok alignment ∧
      Recounts alignment steps moments ∧ ∀ moment ∈ moments, moment.Nested := by
  obtain ⟨alignment, moments, aligned, recounts, _, ⟨limit, active, threaded⟩, valid⟩ :=
    exists_moments reduced
  refine ⟨alignment, moments, aligned, recounts, ?_⟩
  intro moment member
  have record : moment.record.Aligned :=
    threaded.aligned _ (List.mem_map_of_mem member)
  exact (valid moment member).nested record

/-- Three functions are active before the second context is reverted, and one after. -/
theorem Sample.activations_unwind :
    ∃ steps, reduce registry (inputs activations.execution.logs) = .ok steps ∧
      (∃ step ∈ steps, step.kind = .functionIn ∧ step.calls.length = 3) ∧
      ∃ step ∈ steps, step.kind = .functionOut ∧ step.calls.length = 1 := by
  have enters := callsEnter activations.execution.logs
  obtain ⟨steps, reduced, shown⟩ :=
    run_reduces (runs _) (activations_wellFormed places enters) rfl
  have same := congrArg (List.map fun event : Nat × StepKind × List CallFrame =>
    (event.1, event.2.1, event.2.2.map CallFrame.address)) shown.events
  rw [List.map_map, activations_events enters] at same
  have step (event : Nat × StepKind × List ContextAddress)
      (member : event ∈ (steps.filter fun step => step.kind ≠ .line).map fun step =>
        (step.index, step.kind, step.calls.map CallFrame.address)) :
      ∃ step ∈ steps, step.kind = event.2.1 ∧ step.calls.length = event.2.2.length := by
    obtain ⟨step, inside, rfl⟩ := List.mem_map.mp member
    exact ⟨step, (List.mem_filter.mp inside).1, rfl, by simp⟩
  refine ⟨steps, reduced,
    step (9, .functionIn, [.deployed 0x10, .deployed 0x20, .deployed 0x20]) ?_,
    step (12, .functionOut, [.deployed 0x10]) ?_⟩
  · exact same ▸ List.mem_of_getElem? (i := 7) rfl
  · exact same ▸ List.mem_of_getElem? (i := 8) rfl

/-- The stack of a run that unwinds a context. -/
theorem calls_discipline_activations :
    ∃ steps, reduce Sample.registry (Sample.inputs Sample.activations.execution.logs) = .ok steps ∧
      (∃ step ∈ steps, step.kind = .functionIn ∧ step.calls.length = 3) ∧
      ∃ alignment moments, Alignment.ofInputs Sample.registry
          (Sample.inputs Sample.activations.execution.logs) = .ok alignment ∧
        Recounts alignment steps moments ∧ ∀ moment ∈ moments, moment.Nested := by
  obtain ⟨steps, reduced, entry, _⟩ := Sample.activations_unwind
  exact ⟨steps, reduced, entry, calls_discipline reduced⟩

/-! ### Exits -/

namespace Moment

/-- What an exit leaves: the innermost function. It runs in an active context, and where the context
returns in the executing one; else it has the name of the record's function. It runs in the
executing context just if any active function does. -/
structure Leaves (moment : Moment) (frame : Frame) : Prop where
  innermost : ∃ outer, moment.frames = outer ++ [frame]
  active : frame.context ∈ moment.record.active
  returns : moment.record.log.op = "RETURN" → frame.context = moment.record.context
  jumps : moment.record.log.op ≠ "RETURN" → frame.call.function = moment.record.functionName
  own_iff : frame.context = moment.record.context ↔
    ∃ other ∈ moment.frames, other.context = moment.record.context

theorem Valid.leaves {moment : Moment} (valid : moment.Valid) (aligned : moment.record.Aligned)
    (exits : moment.step.kind = .functionOut) : ∃ frame, moment.Leaves frame := by
  obtain ⟨outer, frame, frames, returns, jumps⟩ := valid.exits exits
  have member : frame ∈ moment.frames := by simp [frames]
  have active := valid.settled.live frame member
  refine ⟨frame, ⟨outer, frames⟩, active, returns, jumps, fun own => ⟨frame, member, own⟩, ?_⟩
  rintro ⟨other, inside, own⟩
  -- The innermost function runs in the innermost context that any of them runs in.
  have below : other.context ≤ frame.context := by
    have ordered := valid.settled.ordered
    rw [frames] at inside ordered
    rcases List.mem_append.mp inside with inside | same
    · exact (List.pairwise_append.mp ordered).2.2 other inside frame (by simp)
    · rw [List.mem_singleton.mp same]
  have above := aligned.innermost _ active
  omega

/-- How many functions the steps of given moments enter in a context. -/
def entriesInto (context : Nat) (moments : List Moment) : Nat :=
  moments.countP fun moment =>
    moment.step.kind = .functionIn ∧ moment.record.context = context

/-- How many exits a context executes at given moments. -/
def exitsFrom (context : Nat) (moments : List Moment) : Nat :=
  moments.countP fun moment =>
    moment.step.kind = .functionOut ∧ moment.record.context = context

theorem entriesInto_cons (context : Nat) (moment : Moment) (moments : List Moment) :
    entriesInto context (moment :: moments) =
      entriesInto context [moment] + entriesInto context moments := by
  rw [← List.singleton_append]
  exact List.countP_append

theorem exitsFrom_cons (context : Nat) (moment : Moment) (moments : List Moment) :
    exitsFrom context (moment :: moments) =
      exitsFrom context [moment] + exitsFrom context moments := by
  rw [← List.singleton_append]
  exact List.countP_append

/-- How many functions of a context are among given ones. -/
def running (context : Nat) (frames : List Frame) : Nat :=
  frames.countP fun frame => frame.context = context

/-- Whether the innermost function runs in the executing context. -/
def LeavesOwn (moment : Moment) : Prop :=
  ∃ outer frame, moment.frames = outer ++ [frame] ∧ frame.context = moment.record.context

theorem Leaves.leavesOwn_iff {moment : Moment} {frame : Frame} (leaves : moment.Leaves frame) :
    moment.LeavesOwn ↔ 0 < running moment.record.context moment.frames := by
  obtain ⟨outer, frames⟩ := leaves.innermost
  have own : moment.LeavesOwn ↔ frame.context = moment.record.context := by
    constructor
    · rintro ⟨others, last, split, own⟩
      rw [frames] at split
      obtain ⟨_, same⟩ := List.append_inj' split rfl
      cases same
      exact own
    · exact fun own => ⟨outer, frame, frames, own⟩
  rw [own, leaves.own_iff, running, List.countP_pos_iff]
  simp

section

variable {moment : Moment} {stack : List Frame} (context : Nat)

/-- A step adds the functions that it enters to those of a context that stays active. -/
theorem Follows.running_frames (follows : moment.Follows stack)
    (stays : ∀ frame ∈ stack, frame.context = context → context ∈ moment.record.active) :
    running context moment.frames = running context stack + entriesInto context [moment] := by
  obtain ⟨kept, gone, entered, split, frames, inactive, enters⟩ := follows
  have none : running context gone = 0 := by
    apply List.countP_eq_zero.mpr
    intro frame member own
    have own : frame.context = context := by simpa using own
    have active := stays frame (by simp [split, member]) own
    exact inactive frame member (own ▸ active)
  have added : running context entered = entriesInto context [moment] := by
    unfold Enters at enters
    split at enters
    · rename_i entry
      obtain ⟨_, frame, rfl, _, same, _⟩ := enters
      simp [running, entriesInto, entry, same, List.countP_singleton]
    · rename_i other
      simp [running, entriesInto, other, enters]
  have sum (front back : List Frame) :
      running context (front ++ back) = running context front + running context back :=
    List.countP_append
  rw [frames, split, sum, sum, none, added]
  rfl

/-- An exit that leaves a function of the executing context takes it from those of the context. -/
theorem running_remaining (exits : moment.step.kind = .functionOut → moment.LeavesOwn) :
    running context moment.remaining + exitsFrom context [moment] =
      running context moment.frames := by
  unfold remaining
  split
  · rename_i exit
    obtain ⟨outer, frame, frames, own⟩ := exits exit
    simp [running, exitsFrom, exit, frames, own, List.countP_singleton]
  · rename_i other
    simp [exitsFrom, other]

end

/-- As long as exits leave functions of their own contexts, as many functions of a context are
active as have been entered in it and not left, provided that it is active later on. -/
theorem running_after {context : Nat} {later : Record} (inside : context ∈ later.active)
    {rest : List Record} {moments : List Moment} :
    ∀ {limit : Nat} {active : List Nat} {stack : List Frame},
      Threaded limit active (moments.map Moment.record ++ later :: rest) →
      (∀ frame ∈ stack, frame.context < limit) → History stack moments →
      (∀ moment ∈ moments, moment.step.kind = .functionOut → moment.LeavesOwn) →
      running context (after stack moments) + exitsFrom context moments =
        running context stack + entriesInto context moments := by
  induction moments with
  | nil => intro limit active stack _ _ _ _; rfl
  | cons moment moments ih =>
      intro limit active stack threaded taken history own
      obtain ⟨aligned, _, next, grows, below, others⟩ := threaded
      obtain ⟨follows, histories⟩ := history
      have entered := follows.running_frames context (by
        intro frame member same
        have known := taken frame member
        exact Threaded.active_of_later (by simp) inside others (by omega))
      have left := running_remaining context (own moment List.mem_cons_self)
      have bounded : ∀ frame ∈ moment.remaining, frame.context < next := by
        intro frame member
        obtain ⟨kept, gone, added, split, frames, _, enters⟩ := follows
        have member := moment.remaining_sublist.subset member
        rw [frames] at member
        rcases List.mem_append.mp member with before | here
        · have known := taken frame (by simp [split, before])
          omega
        · unfold Enters at enters
          split at enters
          · obtain ⟨_, _, rfl, _, same, _⟩ := enters
            rw [List.mem_singleton.mp here, same]
            exact below _ aligned.executing
          · simp [enters] at here
      have step := ih others bounded histories
        (fun other member => own other (List.mem_cons_of_mem _ member))
      rw [after, entriesInto_cons, exitsFrom_cons]
      omega

/-- While exits leave functions of their own contexts, an exit finds one of its context just if more
functions have been entered there than left. -/
theorem Leaves.leavesOwn_iff_entries {front back : List Moment} {moment : Moment} {frame : Frame}
    (leaves : moment.Leaves frame) (exits : moment.step.kind = .functionOut) {limit : Nat}
    {active : List Nat} (executing : moment.record.context ∈ moment.record.active)
    (threaded : Threaded limit active ((front ++ moment :: back).map Moment.record))
    (history : History [] (front ++ moment :: back))
    (own : ∀ other ∈ front, other.step.kind = .functionOut → other.LeavesOwn) :
    moment.LeavesOwn ↔
      exitsFrom moment.record.context front < entriesInto moment.record.context front := by
  obtain ⟨before, follows, _⟩ := (history_append front (moment :: back) []).mp history
  rw [List.map_append, List.map_cons] at threaded
  have balance := running_after executing threaded (by simp) before own
  have kept := follows.running_frames moment.record.context (fun _ _ _ => executing)
  have none : entriesInto moment.record.context [moment] = 0 := by simp [entriesInto, exits]
  have empty : running moment.record.context [] = 0 := rfl
  rw [leaves.leavesOwn_iff]
  omega

end Moment

/-- Where the exits of a trace leave functions of the executing contexts. -/
theorem leavesOwn_iff {moments : List Moment} (history : Moment.History [] moments) {limit : Nat}
    {active : List Nat} (threaded : Threaded limit active (moments.map Moment.record))
    (leaves : ∀ moment ∈ moments, moment.step.kind = .functionOut → ∃ frame, moment.Leaves frame) :
    (∀ moment ∈ moments, moment.step.kind = .functionOut → moment.LeavesOwn) ↔
      ∀ front moment back, moments = front ++ moment :: back →
        moment.step.kind = .functionOut →
        Moment.exitsFrom moment.record.context front <
          Moment.entriesInto moment.record.context front := by
  have atExit (front : List Moment) (moment : Moment) (back : List Moment)
      (split : moments = front ++ moment :: back) (exits : moment.step.kind = .functionOut)
      (own : ∀ other ∈ front, other.step.kind = .functionOut → other.LeavesOwn) :
      moment.LeavesOwn ↔ Moment.exitsFrom moment.record.context front <
        Moment.entriesInto moment.record.context front := by
    have member : moment ∈ moments := by simp [split]
    have aligned := threaded.aligned _ (List.mem_map_of_mem member)
    obtain ⟨frame, left⟩ := leaves moment member exits
    rw [split] at threaded history
    exact left.leavesOwn_iff_entries exits aligned.executing threaded history own
  constructor
  · intro own front moment back split exits
    refine (atExit front moment back split exits ?_).mp (own moment (by simp [split]) exits)
    exact fun other member => own other (by simp [split, member])
  · intro more
    -- The exits before one leave their own, so the counts before it are right.
    have upTo : ∀ front back, moments = front ++ back →
        ∀ moment ∈ front, moment.step.kind = .functionOut → moment.LeavesOwn := by
      intro front
      induction front using List.reverseRecOn with
      | nil => intro _ _ moment member; cases member
      | append_singleton front last ih =>
          intro back split moment member exits
          have split : moments = front ++ last :: back := by simp [split]
          have before := ih (last :: back) split
          rcases List.mem_append.mp member with member | same
          · exact before moment member exits
          · rw [List.mem_singleton.mp same] at exits ⊢
            exact (atExit front last back split exits before).mpr
              (more front last back split exits)
    exact upTo moments [] (by simp)

/-- An exit leaves the innermost function, which a jump out tells by its name only. All exits leave
functions of the executing contexts just if more functions have been entered than left there before
each. -/
theorem exits_leave {registry : Registry} {inputs : TraceInputs} {steps : List Step}
    (reduced : reduce registry inputs = .ok steps) :
    ∃ alignment moments, Alignment.ofInputs registry inputs = .ok alignment ∧
      Recounts alignment steps moments ∧
      (∀ moment ∈ moments, moment.step.kind = .functionOut → ∃ frame, moment.Leaves frame) ∧
      ((∀ moment ∈ moments, moment.step.kind = .functionOut → moment.LeavesOwn) ↔
        ∀ front moment back, moments = front ++ moment :: back →
          moment.step.kind = .functionOut →
          Moment.exitsFrom moment.record.context front <
            Moment.entriesInto moment.record.context front) := by
  obtain ⟨alignment, moments, aligned, recounts, history, ⟨limit, active, threaded⟩, valid⟩ :=
    exists_moments reduced
  have leaves : ∀ moment ∈ moments, moment.step.kind = .functionOut →
      ∃ frame, moment.Leaves frame := by
    intro moment member exits
    have record := threaded.aligned _ (List.mem_map_of_mem member)
    exact (valid moment member).leaves record exits
  exact ⟨alignment, moments, aligned, recounts, leaves, leavesOwn_iff history threaded leaves⟩

/-- The exits of a run in which the second context is left without one. -/
theorem exits_leave_activations :
    ∃ steps, reduce Sample.registry (Sample.inputs Sample.activations.execution.logs) = .ok steps ∧
      (∃ step ∈ steps, step.kind = .functionOut ∧ step.calls.length = 1) ∧
      ∃ alignment moments, Alignment.ofInputs Sample.registry
          (Sample.inputs Sample.activations.execution.logs) = .ok alignment ∧
        Recounts alignment steps moments ∧
        (∀ moment ∈ moments, moment.step.kind = .functionOut → ∃ frame, moment.Leaves frame) ∧
        ((∀ moment ∈ moments, moment.step.kind = .functionOut → moment.LeavesOwn) ↔
          ∀ front moment back, moments = front ++ moment :: back →
            moment.step.kind = .functionOut →
            Moment.exitsFrom moment.record.context front <
              Moment.entriesInto moment.record.context front) := by
  obtain ⟨steps, reduced, _, exit⟩ := Sample.activations_unwind
  exact ⟨steps, reduced, exit, exits_leave reduced⟩

end SolTrace
