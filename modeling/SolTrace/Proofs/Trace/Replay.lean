import SolTrace.Proofs.Trace.Activation
/-!
Replay: what one record does to the active functions and to the steps. Functions of contexts that
have been left without an exit stay on the stack until the next step drops them.
-/
set_option autoImplicit false

namespace SolTrace

namespace Reduction

/-! ### Parts of a step -/

@[simp] theorem mergeThrough_frames (state : Reduction) (index : Nat) :
    (state.mergeThrough index).frames = state.frames := rfl

@[simp] theorem mergeThrough_steps (state : Reduction) (index : Nat) :
    (state.mergeThrough index).steps = state.steps := rfl

@[simp] theorem leaveFunction_frames (state : Reduction) :
    state.leaveFunction.frames = state.frames.tail := by
  unfold leaveFunction
  split <;> simp [*]

@[simp] theorem leaveFunction_steps (state : Reduction) :
    state.leaveFunction.steps = state.steps := by
  unfold leaveFunction
  split <;> rfl

@[simp] theorem bindGlobals_frames (state : Reduction) (record : Record) :
    (state.bindGlobals record).frames = state.frames := by
  unfold bindGlobals
  split <;> rfl

@[simp] theorem bindGlobals_steps (state : Reduction) (record : Record) :
    (state.bindGlobals record).steps = state.steps := by
  unfold bindGlobals
  split <;> rfl

/-- What holds on after each exit holds on after all of them. -/
theorem leaveWhile_preserves {motive : Reduction → Prop} {condition : Frame → Bool}
    {before : Reduction → Reduction} {frames : List Frame}
    (exits : ∀ state, motive state → motive (before state).leaveFunction) :
    ∀ state, motive state → motive (leaveWhile condition before frames state) := by
  induction frames with
  | nil => exact fun _ holds => holds
  | cons frame frames ih =>
      intro state holds
      rw [leaveWhile]
      split
      · exact ih _ (exits state holds)
      · exact holds

/-- Leaving functions without a step leaves the steps alone. -/
theorem leaveWhile_id (condition : Frame → Bool) (frames : List Frame) :
    ∀ state : Reduction, state.frames = frames →
      (leaveWhile condition id frames state).frames = frames.dropWhile condition ∧
        (leaveWhile condition id frames state).steps = state.steps := by
  induction frames with
  | nil => intro state same; simpa [leaveWhile] using same
  | cons frame frames ih =>
      intro state same
      by_cases holds : condition frame = true
      · have rest := ih state.leaveFunction (by simp [same])
        simpa [leaveWhile, holds] using rest
      · simp [leaveWhile, holds, same]

theorem dropUnwound_frames (state : Reduction) (record : Record) :
    (state.dropUnwound record).frames =
      state.frames.dropWhile fun frame => !record.active.contains frame.context :=
  (leaveWhile_id _ state.frames state rfl).1

@[simp] theorem dropUnwound_steps (state : Reduction) (record : Record) :
    (state.dropUnwound record).steps = state.steps :=
  (leaveWhile_id _ state.frames state rfl).2

/-- What is done before each step of a record adds no steps. -/
theorem ready_steps (state : Reduction) (record : Record) :
    ((state.mergeThrough record.index).dropUnwound record).steps = state.steps :=
  (leaveWhile_id _ _ _ rfl).2

/-- Once functions of contexts that have been left are gone, the innermost one is active. -/
theorem active_of_dropUnwound (state : Reduction) (record : Record) :
    ∀ frame ∈ (state.dropUnwound record).frames.head?, frame.context ∈ record.active := by
  intro frame innermost
  rw [dropUnwound_frames] at innermost
  have stops := List.head?_dropWhile_not (fun frame : Frame =>
    !record.active.contains frame.context) state.frames
  rw [innermost] at stops
  simpa using stops

theorem leaveWhile_none (condition : Frame → Bool) (before : Reduction → Reduction)
    (frames : List Frame) (state : Reduction) (fails : ∀ frame ∈ frames, condition frame = false) :
    leaveWhile condition before frames state = state := by
  cases frames with
  | nil => rfl
  | cons frame frames => simp [leaveWhile, fails frame (by simp)]

/-- A jump out leaves the innermost function, which has the name of the record's function. -/
theorem exitFunction_cases {state after : Reduction} {record : Record}
    (left : state.exitFunction record = .ok after) :
    ∃ frame frames, state.frames = frame :: frames ∧
      frame.call.function = (record.function?.map Node.functionName).getD "" ∧
      after = (state.emit record .functionOut).leaveFunction := by
  unfold exitFunction at left
  split at left
  · cases left
  · next frame frames active =>
      dsimp only at left
      split at left
      · next same => exact ⟨frame, frames, active, same, (Except.ok.inj left).symm⟩
      · cases left

/-- A step shows the state, enters a function, or leaves the functions of its context or the
innermost one. -/
theorem takeStep_cases {state after : Reduction} {record : Record} {kind : StepKind}
    (taken : state.takeStep record kind = .ok after) :
    ((kind = .jump ∨ kind = .line) ∧ after = state.emit record kind) ∨
      (kind = .functionIn ∧ record.function? = none ∧ after = state) ∨
      (kind = .functionIn ∧ ∃ function inner, record.function? = some function ∧
        state.enterFunction record function = .ok inner ∧
        after = inner.emit record .functionIn) ∨
      (kind = .functionOut ∧ record.log.op = "RETURN" ∧
        after = leaveWhile (fun frame => frame.context == record.context)
          (fun state => state.emit record .functionOut) state.frames state) ∨
      (kind = .functionOut ∧ record.log.op ≠ "RETURN" ∧ state.exitFunction record = .ok after) := by
  cases kind with
  | jump => exact .inl ⟨.inl rfl, (Except.ok.inj taken).symm⟩
  | line => exact .inl ⟨.inr rfl, (Except.ok.inj taken).symm⟩
  | functionIn =>
      simp only [takeStep] at taken
      split at taken
      · next none => exact .inr (.inl ⟨rfl, none, (Except.ok.inj taken).symm⟩)
      · next function known =>
          obtain ⟨inner, entered, made⟩ := bind_eq_ok.mp taken
          exact .inr (.inr (.inl ⟨rfl, function, inner, known, entered,
            (Except.ok.inj made).symm⟩))
  | functionOut =>
      simp only [takeStep] at taken
      split at taken
      · next returns =>
          exact .inr (.inr (.inr (.inl ⟨rfl, returns, (Except.ok.inj taken).symm⟩)))
      · next jumps => exact .inr (.inr (.inr (.inr ⟨rfl, jumps, taken⟩)))

theorem registerLocal_ok (state : Reduction) (record : Record)
    (resolvable : Activation.Resolvable record.contract record.node) :
    ∃ scopes, state.registerLocal record = .ok { state with scopes } := by
  unfold registerLocal
  by_cases skipped : record.node.kind ≠ .variableDeclaration ∨ record.node.flag "stateVariable"
  · exact ⟨state.scopes, if_pos skipped⟩
  · obtain ⟨var, declared⟩ := resolvable (by simp_all)
    simp only [if_neg skipped, declared, ok_bind]
    split
    · exact ⟨state.scopes, rfl⟩
    · split
      · exact ⟨state.scopes, rfl⟩
      · exact ⟨_, rfl⟩

theorem registerLocal_self (state : Reduction) (record : Record)
    (other : record.node.kind ≠ .variableDeclaration) : state.registerLocal record = .ok state :=
  if_pos (Or.inl other)

/-- Parameters are bound if their types are known. -/
theorem bindDeclarations_ok (record : Record) (function : Node) (scopes : Scopes)
    (resolvable : ∀ declaration ∈ record.contract.ast.signature function,
      ∃ var, record.contract.resolver.declared declaration = .ok var) :
    ∃ bound, bindDeclarations record function scopes = .ok bound := by
  have known : ∀ entry ∈ declarations record function,
      ∃ var, record.contract.resolver.declared entry.1 = .ok var := by
    intro entry member
    exact resolvable entry.1 (List.mem_reverse.mp (List.of_mem_zip member).1)
  unfold bindDeclarations
  generalize declarations record function = entries at known
  induction entries generalizing scopes with
  | nil => exact ⟨scopes, rfl⟩
  | cons entry entries ih =>
      obtain ⟨var, declared⟩ := known entry (by simp)
      simp only [List.foldlM_cons, declared, ok_bind, pure, Except.pure]
      exact ih _ fun later member => known later (List.mem_cons_of_mem _ member)

/-! ### Steps -/

/-- The calls of functions that are listed innermost first. -/
def callsOf (frames : List Frame) : List CallFrame :=
  (frames.map Frame.call).reverse

@[simp] theorem callsOf_cons (frame : Frame) (frames : List Frame) :
    callsOf (frame :: frames) = callsOf frames ++ [frame.call] := by simp [callsOf]

@[simp] theorem callsOf_append (front back : List Frame) :
    callsOf (front ++ back) = callsOf back ++ callsOf front := by simp [callsOf]

/-- Whether a state has the steps of another and one more. -/
def Emits (before after : Reduction) (index : Nat) (kind : StepKind) (calls : List CallFrame) :
    Prop :=
  ∃ step, after.steps = before.steps.push step ∧ step.index = index ∧ step.kind = kind ∧
    step.calls = calls

/-- Whether the active functions are the given ones, innermost first, below functions of contexts
that have been left. The active contexts have the given numbers, of those entered so far. -/
structure Standing (state : Reduction) (ids : List Nat) (entered : Nat) (frames : List Frame) :
    Prop where
  active : ∀ frame ∈ frames, frame.context ∈ ids
  numbered : ∀ id ∈ ids, id < entered
  stacked : ∃ stale, state.frames = stale ++ frames ∧
    ∀ frame ∈ stale, frame.context ∉ ids ∧ frame.context < entered

/-- A state that has the given functions only. -/
theorem Standing.of_frames {before after : Reduction} {ids : List Nat} {entered : Nat}
    {frames others : List Frame} (standing : Standing before ids entered others)
    (same : after.frames = frames) (active : ∀ frame ∈ frames, frame.context ∈ ids) :
    Standing after ids entered frames :=
  ⟨active, standing.numbered, [], same, by simp⟩

theorem Standing.congr {before after : Reduction} {ids : List Nat} {entered : Nat}
    {frames : List Frame} (standing : Standing before ids entered frames)
    (same : after.frames = before.frames) : Standing after ids entered frames :=
  ⟨standing.active, standing.numbered, by rw [same]; exact standing.stacked⟩

/-- Entering a context leaves the stack alone. -/
theorem Standing.enter {state : Reduction} {ids : List Nat} {entered : Nat} {frames : List Frame}
    (standing : Standing state ids entered frames) :
    Standing state (entered :: ids) (entered + 1) frames := by
  obtain ⟨active, numbered, stale, same, left⟩ := standing
  refine ⟨fun frame member => List.mem_cons_of_mem _ (active frame member), ?_, stale, same, ?_⟩
  · intro id member
    rcases List.mem_cons.mp member with rfl | member
    · exact Nat.lt_succ_self _
    · exact Nat.lt_succ_of_lt (numbered id member)
  · intro frame member
    obtain ⟨gone, before⟩ := left frame member
    refine ⟨?_, Nat.lt_succ_of_lt before⟩
    simp only [List.mem_cons, not_or]
    exact ⟨Nat.ne_of_lt before, gone⟩

/-- Once a context is left, its functions wait to be dropped. -/
theorem Standing.leave {state : Reduction} {ids : List Nat} {id later : Nat}
    {left frames : List Frame} (standing : Standing state (id :: ids) later (left ++ frames))
    (fresh : ∀ other ∈ ids, other < id) (inside : ∀ frame ∈ left, frame.context = id)
    (outside : ∀ frame ∈ frames, frame.context ∈ ids) :
    Standing state ids later frames := by
  obtain ⟨_, numbered, stale, same, gone⟩ := standing
  refine ⟨outside, fun other member => numbered other (List.mem_cons_of_mem _ member),
    stale ++ left, by simp [same], ?_⟩
  intro frame member
  rcases List.mem_append.mp member with member | member
  · obtain ⟨absent, before⟩ := gone frame member
    exact ⟨fun inner => absent (List.mem_cons_of_mem _ inner), before⟩
  · rw [inside frame member]
    exact ⟨fun inner => Nat.lt_irrefl id (fresh id inner), numbered id (by simp)⟩

section

variable {state : Reduction} {record : Record} {ids : List Nat} {entered : Nat}
  {frames : List Frame}

/-- A step drops the functions of contexts that have been left. -/
theorem dropUnwound_standing (standing : Standing state ids entered frames)
    (path : record.active = ids.reverse) (index : Nat) :
    ((state.mergeThrough index).dropUnwound record).frames = frames ∧
      ((state.mergeThrough index).dropUnwound record).steps = state.steps := by
  obtain ⟨active, _, stale, same, left⟩ := standing
  have kept (id : Nat) : id ∈ record.active ↔ id ∈ ids := by simp [path]
  refine ⟨?_, dropUnwound_steps _ record⟩
  rw [dropUnwound_frames, mergeThrough_frames]
  have gone : ∀ frame ∈ stale, (!record.active.contains frame.context) = true := by
    intro frame member
    simp [kept, (left frame member).1]
  rw [same, List.dropWhile_append_of_pos gone]
  cases frames with
  | nil => rfl
  | cons frame frames =>
      exact List.dropWhile_cons_of_neg (by simp [kept, active frame (by simp)])

/-- A record that becomes one step. -/
theorem replay_step (standing : Standing state ids entered frames)
    (path : record.active = ids.reverse)
    (resolvable : Activation.Resolvable record.contract record.node) (kind : StepKind) :
    ∃ ready : Reduction, ready.frames = frames ∧ ready.steps = state.steps ∧
      state.replay (record, [kind]) = ready.takeStep record kind := by
  obtain ⟨scopes, registered⟩ := state.registerLocal_ok record resolvable
  have carried : Standing { state with scopes } ids entered frames := standing.congr rfl
  obtain ⟨remaining, steps⟩ := dropUnwound_standing carried path record.index
  refine ⟨_, remaining, steps, ?_⟩
  simp only [replay, registered, ok_bind, List.foldlM_cons, List.foldlM_nil, replayStep]
  exact bind_pure _

theorem emit_emits (before ready : Reduction) (record : Record) (kind : StepKind)
    (steps : ready.steps = before.steps) :
    Emits before (ready.emit record kind) record.index kind
      (callsOf ready.frames) := by
  refine ⟨ready.stepAt record kind, ?_, rfl, rfl, rfl⟩
  simp [emit, steps]

/-- A call site or a statement. -/
theorem replay_emit (standing : Standing state ids entered frames)
    (path : record.active = ids.reverse)
    (resolvable : Activation.Resolvable record.contract record.node) {kind : StepKind}
    (plain : kind = .jump ∨ kind = .line) :
    ∃ after, state.replay (record, [kind]) = .ok after ∧ Standing after ids entered frames ∧
      Emits state after record.index kind (callsOf frames) := by
  obtain ⟨ready, rfl, steps, replayed⟩ := replay_step standing path resolvable kind
  refine ⟨ready.emit record kind, ?_, standing.of_frames rfl standing.active,
    emit_emits state ready record kind steps⟩
  rw [replayed]
  rcases plain with rfl | rfl <;> rfl

/-- An entry of a function. -/
theorem replay_functionIn (standing : Standing state ids entered frames)
    (path : record.active = ids.reverse) (executing : record.context ∈ ids)
    {function : Node} (node : record.node = function) (kind : function.kind = .functionDefinition)
    (known : record.function? = some function)
    (resolvable : ∀ declaration ∈ record.contract.ast.signature function,
      ∃ var, record.contract.resolver.declared declaration = .ok var) :
    ∃ after frame, state.replay (record, [.functionIn]) = .ok after ∧
      frame.call = ⟨record.address, record.contract.name, function.functionName⟩ ∧
      frame.context = record.context ∧ Standing after ids entered (frame :: frames) ∧
      Emits state after record.index .functionIn (callsOf (frame :: frames)) := by
  have undeclared : Activation.Resolvable record.contract record.node := by
    intro declares
    rw [node, kind] at declares
    contradiction
  obtain ⟨ready, rfl, steps, replayed⟩ := replay_step standing path undeclared .functionIn
  let nodes := (record.contract.ast.walk function.id).map Node.id
  obtain ⟨bound, binds⟩ := bindDeclarations_ok record function
    ((ready.bindGlobals record).scopes.clear nodes) resolvable
  let frame : Frame := {
    call := ⟨record.address, record.contract.name, function.functionName⟩
    context := record.context
    nodes
    shadowed := (ready.bindGlobals record).scopes.pick nodes }
  let inner : Reduction :=
    { ready.bindGlobals record with
      frames := frame :: (ready.bindGlobals record).frames
      scopes := bound }
  have stack : inner.frames = frame :: ready.frames := by simp [inner]
  refine ⟨inner.emit record .functionIn, frame, ?_, rfl, rfl, ?_, ?_⟩
  · rw [replayed]
    simp only [takeStep, known, enterFunction]
    simp [nodes] at binds
    simp [binds, inner, frame, nodes, pure, Except.pure]
  · refine standing.of_frames stack ?_
    intro other member
    rcases List.mem_cons.mp member with rfl | member
    · exact executing
    · exact standing.active other member
  · rw [← stack]
    exact emit_emits state inner record .functionIn (by simp [inner, steps])

/-- An exit of the innermost function. -/
theorem replay_functionOut {frame : Frame} (standing : Standing state ids entered (frame :: frames))
    (path : record.active = ids.reverse)
    (resolvable : Activation.Resolvable record.contract record.node)
    (jumps : record.log.op ≠ "RETURN") {function : Node}
    (known : record.function? = some function)
    (active : frame.call.function = function.functionName) :
    ∃ after, state.replay (record, [.functionOut]) = .ok after ∧
      Standing after ids entered frames ∧
      Emits state after record.index .functionOut (callsOf (frame :: frames)) := by
  obtain ⟨ready, stack, steps, replayed⟩ := replay_step standing path resolvable .functionOut
  refine ⟨(ready.emit record .functionOut).leaveFunction, ?_, ?_, ?_⟩
  · rw [replayed]
    simp [takeStep, jumps, exitFunction, stack, known, active]
  · refine standing.of_frames (by simp [emit, stack]) ?_
    exact fun other member => standing.active other (List.mem_cons_of_mem _ member)
  · rw [← stack]
    obtain ⟨step, pushed, placed⟩ := emit_emits state ready record .functionOut steps
    exact ⟨step, by simpa using pushed, placed⟩

/-- A context that returns after its functions have been left. -/
theorem replay_return (standing : Standing state ids entered frames)
    (path : record.active = ids.reverse)
    (resolvable : Activation.Resolvable record.contract record.node)
    (returns : record.log.op = "RETURN")
    (outside : ∀ frame ∈ frames, frame.context ≠ record.context) :
    ∃ after, state.replay (record, [.functionOut]) = .ok after ∧
      Standing after ids entered frames ∧ after.steps = state.steps := by
  obtain ⟨ready, rfl, steps, replayed⟩ := replay_step standing path resolvable .functionOut
  refine ⟨ready, ?_, standing.of_frames rfl standing.active, steps⟩
  rw [replayed]
  simp only [takeStep, if_pos returns]
  rw [leaveWhile_none]
  intro frame member
  simpa using outside frame member

end

end Reduction

end SolTrace
