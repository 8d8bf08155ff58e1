import Mathlib.Data.List.Chain
import Mathlib.Data.List.TakeWhile
import SolTrace.Proofs.Trace.Contexts
import SolTrace.Proofs.Trace.StateVariables
/-!
Moments: the steps of a trace with the functions that were active at them. What is active at one
step comes from what was active at the step before: functions of contexts that have been left are
gone, and functions are entered and left one by one.
-/
set_option autoImplicit false

namespace SolTrace

/-- The name of the function that a record belongs to. -/
def Record.functionName (record : Record) : String :=
  (record.function?.map Node.functionName).getD ""

/-- A step with the record that it was taken at. -/
structure Moment where
  record : Record
  step : Step
  /-- The active functions, outermost first, with the contexts that they run in. -/
  frames : List Frame

namespace Moment

/-- The functions that are active after a step. -/
def remaining (moment : Moment) : List Frame :=
  if moment.step.kind = .functionOut then moment.frames.dropLast else moment.frames

/-- Whether a step enters the given functions: an entry the one that its record belongs to, in the
executing context, and any other step none. -/
def Enters (moment : Moment) (entered : List Frame) : Prop :=
  if moment.step.kind = .functionIn then
    ∃ function frame, entered = [frame] ∧ moment.record.function? = some function ∧
      frame.context = moment.record.context ∧
      frame.call = ⟨moment.record.address, moment.record.contract.name, function.functionName⟩
  else entered = []

/-- Whether the functions that are active at a step come from given ones: functions of contexts that
are not active any more are gone from the end, and what the step enters is added. -/
def Follows (moment : Moment) (stack : List Frame) : Prop :=
  ∃ kept gone entered, stack = kept ++ gone ∧ moment.frames = kept ++ entered ∧
    (∀ frame ∈ gone, frame.context ∉ moment.record.active) ∧ moment.Enters entered

/-- Whether each of the moments follows on the one before, and the first one on given functions. -/
def History : List Frame → List Moment → Prop
  | _, [] => True
  | stack, moment :: rest => moment.Follows stack ∧ History moment.remaining rest

/-- The functions that are active after all moments. -/
def after : List Frame → List Moment → List Frame
  | stack, [] => stack
  | _, moment :: rest => after moment.remaining rest

theorem history_append (front back : List Moment) :
    ∀ stack, History stack (front ++ back) ↔
      History stack front ∧ History (after stack front) back := by
  induction front with
  | nil => intro stack; simp [History, after]
  | cons moment front ih => intro stack; simp [History, after, ih, and_assoc]

theorem after_append (front back : List Moment) :
    ∀ stack, after stack (front ++ back) = after (after stack front) back := by
  induction front with
  | nil => intro stack; rfl
  | cons moment front ih => intro stack; exact ih moment.remaining

theorem isChain_of_history {moments : List Moment} :
    ∀ {stack : List Frame}, History stack moments →
      (∀ moment ∈ moments.head?, moment.Follows stack) ∧
        moments.IsChain fun first second => second.Follows first.remaining := by
  induction moments with
  | nil => intro stack _; simp
  | cons moment rest ih =>
      intro stack history
      obtain ⟨follows, others⟩ := history
      obtain ⟨first, chain⟩ := ih others
      refine ⟨by simpa using follows, ?_⟩
      exact List.isChain_cons.mpr ⟨first, chain⟩

/-- Functions of contexts that have been left make no difference to what follows. -/
theorem history_lagging {record : Record} {kept gone : List Frame} {moments : List Moment}
    (history : History kept moments) (here : ∀ moment ∈ moments, moment.record = record)
    (left : ∀ frame ∈ gone, frame.context ∉ record.active) : History (kept ++ gone) moments := by
  cases moments with
  | nil => trivial
  | cons moment rest =>
      obtain ⟨⟨outer, others, entered, split, frames, inactive, enters⟩, later⟩ := history
      refine ⟨⟨outer, others ++ gone, entered, by rw [split, List.append_assoc], frames, ?_,
        enters⟩, later⟩
      intro frame member
      rcases List.mem_append.mp member with member | member
      · exact inactive frame member
      · rw [here moment List.mem_cons_self]
        exact left frame member

end Moment

/-- Whether all of the given functions, outermost first, run in contexts that are active at a
record, in the order of the contexts. -/
structure Settled (record : Record) (frames : List Frame) : Prop where
  live : ∀ frame ∈ frames, frame.context ∈ record.active
  ordered : frames.Pairwise fun outer inner => outer.context ≤ inner.context

theorem Settled.sublist {record : Record} {frames rest : List Frame}
    (settled : Settled record frames) (sublist : rest.Sublist frames) : Settled record rest :=
  ⟨fun frame member => settled.live frame (sublist.subset member),
    settled.ordered.sublist sublist⟩

/-- A function that is entered in the executing context is the innermost one. -/
theorem Settled.enter {record : Record} {frames : List Frame} {frame : Frame}
    (settled : Settled record frames) (aligned : record.Aligned)
    (context : frame.context = record.context) : Settled record (frames ++ [frame]) := by
  constructor
  · intro other member
    rcases List.mem_append.mp member with member | member
    · exact settled.live other member
    · rw [List.mem_singleton.mp member, context]
      exact aligned.executing
  · refine List.pairwise_append.mpr ⟨settled.ordered, by simp, ?_⟩
    intro outer member other single
    rw [List.mem_singleton.mp single, context]
    exact aligned.innermost _ (settled.live outer member)

/-- What holds of the active functions at any step. An exit leaves the innermost one, which runs in
the executing context if the context returns, and else has the name of the record's function. -/
structure Moment.Valid (moment : Moment) : Prop where
  index : moment.step.index = moment.record.index
  calls : moment.step.calls = moment.frames.map Frame.call
  settled : Settled moment.record moment.frames
  exits : moment.step.kind = .functionOut → ∃ outer frame, moment.frames = outer ++ [frame] ∧
    (moment.record.log.op = "RETURN" → frame.context = moment.record.context) ∧
    (moment.record.log.op ≠ "RETURN" → frame.call.function = moment.record.functionName)

theorem Moment.remaining_sublist (moment : Moment) : moment.remaining.Sublist moment.frames := by
  unfold remaining
  split
  · exact List.dropLast_sublist _
  · exact List.Sublist.refl _

theorem Settled.after {record : Record} {moments : List Moment}
    (valid : ∀ moment ∈ moments, moment.record = record ∧ moment.Valid) :
    ∀ {stack : List Frame}, Settled record stack → Settled record (Moment.after stack moments) := by
  induction moments with
  | nil => exact fun settled => settled
  | cons moment rest ih =>
      intro _ _
      obtain ⟨here, holds⟩ := valid moment List.mem_cons_self
      refine ih (fun other member => valid other (List.mem_cons_of_mem _ member)) ?_
      exact here ▸ holds.settled.sublist moment.remaining_sublist

namespace Reduction

/-- The moment of a step that is taken in a state. -/
def momentAt (state : Reduction) (record : Record) (kind : StepKind) : Moment :=
  ⟨record, state.stepAt record kind, state.frames.reverse⟩

/-- Whether a state comes from another by the steps of given moments, all at one record. -/
structure Passes (record : Record) (before after : Reduction) (moments : List Moment) : Prop where
  steps : after.steps.toList = before.steps.toList ++ moments.map Moment.step
  valid : ∀ moment ∈ moments, moment.record = record ∧ moment.Valid

theorem Passes.refl {record : Record} {before after : Reduction}
    (same : after.steps = before.steps) : Passes record before after [] :=
  ⟨by simp [same], by simp⟩

theorem Passes.trans {record : Record} {first second third : Reduction}
    {front back : List Moment} (left : Passes record first second front)
    (right : Passes record second third back) : Passes record first third (front ++ back) := by
  constructor
  · rw [right.steps, left.steps, List.map_append, List.append_assoc]
  · intro moment member
    rcases List.mem_append.mp member with member | member
    · exact left.valid moment member
    · exact right.valid moment member

/-- Whether a state comes from another by steps at one record, which tell how its active functions
come from those of the other. -/
def Advances (record : Record) (before after : Reduction) : Prop :=
  ∃ moments, Passes record before after moments ∧
    Moment.History before.frames.reverse moments ∧
    Moment.after before.frames.reverse moments = after.frames.reverse

theorem Advances.refl (record : Record) (state : Reduction) : Advances record state state :=
  ⟨[], .refl rfl, trivial, rfl⟩

theorem Advances.trans {record : Record} {first second third : Reduction}
    (left : Advances record first second) (right : Advances record second third) :
    Advances record first third := by
  obtain ⟨front, passes, history, between⟩ := left
  obtain ⟨back, later, onwards, final⟩ := right
  rw [← between] at onwards final
  exact ⟨front ++ back, passes.trans later,
    (Moment.history_append front back _).mpr ⟨history, onwards⟩,
    (Moment.after_append front back _).trans final⟩

section

variable {record : Record} {state after : Reduction}

/-- A step that is not an exit. -/
theorem passes_emit {kind : StepKind} (settled : Settled record state.frames.reverse)
    (stays : kind ≠ .functionOut) :
    Passes record state (state.emit record kind) [state.momentAt record kind] := by
  refine ⟨by simp [emit, momentAt], ?_⟩
  intro moment member
  rw [List.mem_singleton.mp member]
  refine ⟨rfl, rfl, ?_, settled, fun exits => absurd exits stays⟩
  simp [momentAt, stepAt]

/-- A call site or a statement. -/
theorem emit_advances {kind : StepKind} (settled : Settled record state.frames.reverse)
    (other : kind = .jump ∨ kind = .line) : Advances record state (state.emit record kind) := by
  have inside : kind ≠ .functionOut ∧ kind ≠ .functionIn := by
    rcases other with rfl | rfl <;> decide
  refine ⟨_, passes_emit settled inside.1, ⟨⟨state.frames.reverse, [], [], ?_⟩, trivial⟩, ?_⟩
  · simp [momentAt, Moment.Enters, stepAt, inside.2]
  · simp [Moment.after, Moment.remaining, momentAt, stepAt, emit, inside.1]

/-- An exit of the innermost function. -/
theorem exit_advances {frame : Frame} {frames : List Frame}
    (settled : Settled record state.frames.reverse) (active : state.frames = frame :: frames)
    (returns : record.log.op = "RETURN" → frame.context = record.context)
    (jumps : record.log.op ≠ "RETURN" → frame.call.function = record.functionName) :
    Advances record state (state.emit record .functionOut).leaveFunction := by
  have listed : state.frames.reverse = frames.reverse ++ [frame] := by simp [active]
  refine ⟨[state.momentAt record .functionOut], ⟨by simp [emit, momentAt], ?_⟩,
    ⟨⟨state.frames.reverse, [], [], by simp, by simp [momentAt], by simp, rfl⟩, trivial⟩, ?_⟩
  · intro moment member
    rw [List.mem_singleton.mp member]
    refine ⟨rfl, rfl, by simp [momentAt, stepAt], settled, ?_⟩
    intro _
    exact ⟨frames.reverse, frame, listed, returns, jumps⟩
  · simp [Moment.after, Moment.remaining, momentAt, stepAt, emit, active]

/-- Leaving all functions of the executing context. -/
theorem leaveWhile_advances (returns : record.log.op = "RETURN") (frames : List Frame) :
    ∀ state : Reduction, state.frames = frames → Settled record state.frames.reverse →
      Advances record state (leaveWhile (fun frame => frame.context == record.context)
        (fun state => state.emit record .functionOut) frames state) := by
  induction frames with
  | nil => exact fun state _ _ => .refl record state
  | cons frame frames ih =>
      intro state active settled
      unfold leaveWhile
      split
      · rename_i own
        have own : frame.context = record.context := by simpa using own
        have exit := exit_advances settled active (fun _ => own)
          (fun jumps => absurd returns jumps)
        have left : (state.emit record .functionOut).leaveFunction.frames = frames := by
          simp [emit, active]
        refine exit.trans (ih _ left ?_)
        rw [left]
        exact settled.sublist (by simp [active])
      · exact .refl record state

theorem enterFunction_frames {function : Node}
    (entered : state.enterFunction record function = .ok after) :
    ∃ frame, after.frames = frame :: state.frames ∧ frame.context = record.context ∧
      frame.call = ⟨record.address, record.contract.name, function.functionName⟩ := by
  obtain ⟨scopes, _, made⟩ := bind_eq_ok.mp entered
  cases made
  exact ⟨_, by rw [bindGlobals_frames], rfl, rfl⟩

/-- An entry of a function. -/
theorem enterFunction_advances (aligned : record.Aligned)
    (settled : Settled record state.frames.reverse) {function : Node}
    (known : record.function? = some function)
    (entered : state.enterFunction record function = .ok after) :
    Advances record state (after.emit record .functionIn) := by
  obtain ⟨frame, frames, context, call⟩ := enterFunction_frames entered
  have listed : after.frames.reverse = state.frames.reverse ++ [frame] := by simp [frames]
  have within : Settled record after.frames.reverse := by
    rw [listed]
    exact settled.enter aligned context
  have emits : Passes record after (after.emit record .functionIn)
      [after.momentAt record .functionIn] := passes_emit within (by decide)
  refine ⟨[after.momentAt record .functionIn], ⟨?_, emits.valid⟩,
    ⟨⟨state.frames.reverse, [], [frame], by simp, listed, by simp, ?_⟩, trivial⟩, ?_⟩
  · rw [emits.steps, enterFunction_steps entered]
  · exact ⟨function, frame, rfl, known, context, call⟩
  · simp [Moment.after, Moment.remaining, momentAt, stepAt, emit]

/-- A jump out of a function. -/
theorem exitFunction_advances (settled : Settled record state.frames.reverse)
    (jumps : record.log.op ≠ "RETURN") (left : state.exitFunction record = .ok after) :
    Advances record state after := by
  obtain ⟨frame, frames, active, same, rfl⟩ := exitFunction_cases left
  exact exit_advances settled active (fun returns => absurd returns jumps) fun _ => same

/-- A step of a record in a state from which functions of contexts that have been left are gone. -/
theorem takeStep_advances (aligned : record.Aligned) {kind : StepKind}
    (settled : Settled record state.frames.reverse)
    (taken : state.takeStep record kind = .ok after) : Advances record state after := by
  rcases takeStep_cases taken with ⟨plain, rfl⟩ | ⟨rfl, _, rfl⟩ |
    ⟨rfl, function, inner, known, entered, rfl⟩ | ⟨rfl, returns, rfl⟩ | ⟨rfl, jumps, left⟩
  · exact emit_advances settled plain
  · exact .refl record _
  · exact enterFunction_advances aligned settled known entered
  · exact leaveWhile_advances returns state.frames state rfl settled
  · exact exitFunction_advances settled jumps left

end

/-- Whether a stack of functions, outermost first, is that of a state, apart from functions of
contexts that have been left. Each function runs in a context around those of the later ones, or in
the same. -/
structure Stacked (limit : Nat) (active : List Nat) (stack : List Frame) (state : Reduction) :
    Prop where
  taken : ∀ frame ∈ stack, frame.context < limit
  nested : stack.Pairwise fun outer inner =>
    outer.context ≤ inner.context ∧ (inner.context ∈ active → outer.context ∈ active)
  lags : ∃ gone, stack = state.frames.reverse ++ gone ∧ ∀ frame ∈ gone, frame.context ∉ active

section

variable {limit next : Nat} {active later : List Nat} {stack : List Frame}
  {state after : Reduction} {record : Record}

theorem Stacked.congr (stacked : Stacked limit active stack state)
    (same : after.frames = state.frames) : Stacked limit active stack after :=
  ⟨stacked.taken, stacked.nested, by rw [same]; exact stacked.lags⟩

theorem Stacked.resume (stacked : Stacked limit active stack state)
    (resumes : Resumes limit active later) (grows : limit ≤ next) :
    Stacked next later stack state := by
  obtain ⟨taken, nested, gone, split, inactive⟩ := stacked
  refine ⟨fun frame member => Nat.lt_of_lt_of_le (taken frame member) grows, ?_, gone, split, ?_⟩
  · refine nested.imp_of_mem ?_
    rintro outer inner _ member ⟨order, around⟩
    refine ⟨order, ?_⟩
    intro inside
    obtain ⟨before, kept⟩ := resumes inner.context inside (taken inner member)
    exact kept outer.context (around before) order
  · intro frame member inside
    have known := taken frame (split ▸ List.mem_append_right _ member)
    exact inactive frame member (resumes frame.context inside known).1

theorem Stacked.of_settled (settled : Settled record state.frames.reverse)
    (taken : ∀ id ∈ record.active, id < limit) :
    Stacked limit record.active state.frames.reverse state := by
  refine ⟨fun frame member => taken _ (settled.live frame member), ?_, [], by simp, by simp⟩
  refine settled.ordered.imp_of_mem ?_
  intro outer inner member _ order
  exact ⟨order, fun _ => settled.live outer member⟩

/-- Once functions of contexts that have been left are gone, all others run in active contexts. -/
theorem Stacked.dropUnwound (stacked : Stacked limit record.active stack state) (index : Nat) :
    Settled record ((state.mergeThrough index).dropUnwound record).frames.reverse ∧
      ∃ gone, stack = ((state.mergeThrough index).dropUnwound record).frames.reverse ++ gone ∧
        ∀ frame ∈ gone, frame.context ∉ record.active := by
  obtain ⟨_, nested, gone, split, inactive⟩ := stacked
  let unwound : Frame → Bool := fun frame => !record.active.contains frame.context
  have frames : ((state.mergeThrough index).dropUnwound record).frames =
      state.frames.dropWhile unwound := dropUnwound_frames _ record
  have innermost := (state.mergeThrough index).active_of_dropUnwound record
  have whole : state.frames.reverse =
      (state.frames.dropWhile unwound).reverse ++ (state.frames.takeWhile unwound).reverse := by
    rw [← List.reverse_append, List.takeWhile_append_dropWhile]
  rw [frames] at innermost ⊢
  have sublist : (state.frames.dropWhile unwound).reverse.Sublist stack := by
    rw [split, whole, List.append_assoc]
    exact List.sublist_append_left _ _
  have inner := nested.sublist sublist
  refine ⟨⟨?_, inner.imp fun pair => pair.1⟩, (state.frames.takeWhile unwound).reverse ++ gone,
    by rw [split, whole, List.append_assoc], ?_⟩
  · -- The innermost one is active, so all around it are.
    cases kept : state.frames.dropWhile unwound with
    | nil => simp
    | cons top others =>
        rw [kept, List.reverse_cons] at inner
        have active : top.context ∈ record.active := innermost top (by simp [kept])
        intro frame member
        rw [List.reverse_cons] at member
        rcases List.mem_append.mp member with outer | same
        · exact ((List.pairwise_append.mp inner).2.2 frame outer top (by simp)).2 active
        · rw [List.mem_singleton.mp same]
          exact active
  · intro frame member
    rcases List.mem_append.mp member with left | lagging
    · have holds := List.mem_takeWhile_imp (List.mem_reverse.mp left)
      simpa [unwound] using holds
    · exact inactive frame lagging

theorem replayStep_passes (aligned : record.Aligned) (taken : ∀ id ∈ record.active, id < limit)
    {kind : StepKind} (stacked : Stacked limit record.active stack state)
    (stepped : replayStep record state kind = .ok after) :
    ∃ moments, Passes record state after moments ∧ Moment.History stack moments ∧
      Stacked limit record.active (Moment.after stack moments) after := by
  obtain ⟨settled, gone, split, inactive⟩ := stacked.dropUnwound record.index
  obtain ⟨moments, passes, history, final⟩ := takeStep_advances aligned settled stepped
  have started : Passes record state ((state.mergeThrough record.index).dropUnwound record) [] :=
    .refl (dropUnwound_steps _ record)
  refine ⟨moments, started.trans passes, ?_, ?_⟩
  · rw [split]
    exact Moment.history_lagging history (fun moment member => (passes.valid moment member).1)
      inactive
  · cases moments with
    | nil => exact ⟨stacked.taken, stacked.nested, gone, by rw [← final]; exact split, inactive⟩
    | cons moment rest =>
        have same : Moment.after stack (moment :: rest) = after.frames.reverse := final
        rw [same]
        refine .of_settled ?_ taken
        rw [← final]
        exact settled.after passes.valid

theorem foldlM_replayStep_passes (aligned : record.Aligned)
    (taken : ∀ id ∈ record.active, id < limit) (kinds : List StepKind) :
    ∀ {stack : List Frame} {state after : Reduction},
      Stacked limit record.active stack state →
      kinds.foldlM (replayStep record) state = .ok after →
      ∃ moments, Passes record state after moments ∧ Moment.History stack moments ∧
        Stacked limit record.active (Moment.after stack moments) after := by
  induction kinds with
  | nil =>
      intro stack state after stacked ran
      cases ran
      exact ⟨[], .refl rfl, trivial, stacked⟩
  | cons kind kinds ih =>
      intro stack state after stacked ran
      obtain ⟨middle, stepped, rest⟩ := bind_eq_ok.mp ran
      obtain ⟨front, first, history, between⟩ := replayStep_passes aligned taken stacked stepped
      obtain ⟨back, second, later, final⟩ := ih between rest
      refine ⟨front ++ back, first.trans second, ?_, ?_⟩
      · exact (Moment.history_append front back stack).mpr ⟨history, later⟩
      · rw [Moment.after_append]
        exact final

/-- All that one record does. -/
theorem replay_passes (aligned : record.Aligned) (taken : ∀ id ∈ record.active, id < limit)
    {kinds : List StepKind} (stacked : Stacked limit record.active stack state)
    (replayed : state.replay (record, kinds) = .ok after) :
    ∃ moments, Passes record state after moments ∧ Moment.History stack moments ∧
      Stacked limit record.active (Moment.after stack moments) after := by
  obtain ⟨begun, registered, ran⟩ := bind_eq_ok.mp replayed
  obtain ⟨moments, passes, history, final⟩ :=
    foldlM_replayStep_passes aligned taken kinds
      (stacked.congr (registerLocal_frames registered)) ran
  have started : Passes record state begun [] := .refl (registerLocal_steps registered)
  exact ⟨moments, started.trans passes, history, final⟩

end

/-- The contexts of moments at one record are those of the record. -/
theorem threaded_repeat {record : Record} (aligned : record.Aligned) {moments : List Moment}
    (here : ∀ moment ∈ moments, moment.record = record) {rest : List Record} {next : Nat}
    (taken : ∀ id ∈ record.active, id < next) (onwards : Threaded next record.active rest) :
    ∀ {limit : Nat} {active : List Nat}, Resumes limit active record.active → limit ≤ next →
      Threaded limit active (moments.map Moment.record ++ rest) := by
  induction moments with
  | nil => exact fun resumes grows => onwards.of_resumes resumes grows
  | cons moment moments ih =>
      intro limit active resumes grows
      rw [List.map_cons, List.cons_append, here moment List.mem_cons_self]
      exact ⟨aligned, resumes, next, grows, taken,
        ih (fun other member => here other (List.mem_cons_of_mem _ member)) (Resumes.refl _ _)
          (Nat.le_refl _)⟩

/-- What a replay of records shows, as moments that follow on each other. -/
theorem foldlM_moments (entries : List (Record × List StepKind)) :
    ∀ {limit : Nat} {active : List Nat} {stack : List Frame} {state after : Reduction},
      Threaded limit active (entries.map Prod.fst) → Stacked limit active stack state →
      entries.foldlM Reduction.replay state = .ok after →
      ∃ moments, after.steps.toList = state.steps.toList ++ moments.map Moment.step ∧
        Moment.History stack moments ∧ Threaded limit active (moments.map Moment.record) ∧
        ∀ moment ∈ moments, moment.record ∈ entries.map Prod.fst ∧ moment.Valid := by
  induction entries with
  | nil =>
      intro limit active stack state after _ _ ran
      cases ran
      exact ⟨[], by simp, trivial, trivial, by simp⟩
  | cons entry entries ih =>
      obtain ⟨record, kinds⟩ := entry
      intro limit active stack state after threaded stacked ran
      obtain ⟨aligned, resumes, later, grows, taken, others⟩ := threaded
      obtain ⟨middle, replayed, rest⟩ := bind_eq_ok.mp ran
      obtain ⟨front, passes, history, between⟩ :=
        replay_passes aligned taken (stacked.resume resumes grows) replayed
      obtain ⟨back, pushed, onwards, threads, valid⟩ := ih others between rest
      have here : ∀ moment ∈ front, moment.record = record :=
        fun moment member => (passes.valid moment member).1
      refine ⟨front ++ back, ?_, ?_, ?_, ?_⟩
      · rw [pushed, passes.steps, List.map_append, List.append_assoc]
      · exact (Moment.history_append front back stack).mpr ⟨history, onwards⟩
      · rw [List.map_append]
        exact threaded_repeat aligned here taken threads resumes grows
      · intro moment member
        rcases List.mem_append.mp member with member | member
        · refine ⟨?_, (passes.valid moment member).2⟩
          rw [here moment member]
          exact List.mem_cons_self
        · exact ⟨List.mem_cons_of_mem _ (valid moment member).1, (valid moment member).2⟩

end Reduction

/-- Whether moments tell the steps of a trace: each step at its record, which its index tells, with
the active functions following on those of the step before, and on none at the first step. -/
structure Recounts (alignment : Alignment) (steps : List Step) (moments : List Moment) :
    Prop where
  steps : moments.map Moment.step = steps
  indexed : alignment.records.toList.Pairwise fun first second => first.index < second.index
  placed : ∀ moment ∈ moments, moment.record ∈ alignment.records.toList ∧
    moment.step.index = moment.record.index
  calls : ∀ moment ∈ moments, moment.step.calls = moment.frames.map Frame.call
  begins : ∀ moment ∈ moments.head?, moment.Follows []
  follows : moments.IsChain fun first second => second.Follows first.remaining

/-- The steps of a trace have moments. -/
theorem exists_moments {registry : Registry} {inputs : TraceInputs} {steps : List Step}
    (reduced : reduce registry inputs = .ok steps) :
    ∃ alignment moments, Alignment.ofInputs registry inputs = .ok alignment ∧
      Recounts alignment steps moments ∧ Moment.History [] moments ∧
      (∃ limit active, Threaded limit active (moments.map Moment.record)) ∧
      ∀ moment ∈ moments, moment.Valid := by
  obtain ⟨alignment, aligned, rest⟩ := bind_eq_ok.mp reduced
  obtain ⟨state, replayed, made⟩ := bind_eq_ok.mp rest
  cases made
  obtain ⟨⟨limit, active, threaded⟩, indexed⟩ := Alignment.ofInputs_threaded aligned
  have records := Classification.ofRecords_records alignment.records.toList
  rw [← records] at threaded
  have stacked : Reduction.Stacked limit active [] (Reduction.start inputs alignment) :=
    ⟨by simp, by simp, [], rfl, by simp⟩
  obtain ⟨moments, pushed, history, threads, valid⟩ :=
    Reduction.foldlM_moments _ threaded stacked replayed
  obtain ⟨begins, follows⟩ := Moment.isChain_of_history history
  have steps : moments.map Moment.step = state.steps.toList := by
    simp [pushed, Reduction.start]
  refine ⟨alignment, moments, aligned, ⟨steps, indexed, ?_, ?_, begins, follows⟩, history,
    ⟨limit, active, threads⟩, fun moment member => (valid moment member).2⟩
  · intro moment member
    obtain ⟨known, holds⟩ := valid moment member
    rw [records] at known
    exact ⟨known, holds.index⟩
  · exact fun moment member => (valid moment member).2.calls

end SolTrace
