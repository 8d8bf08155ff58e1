import SolTrace.Proofs.Trace.CallStack
import SolTrace.Proofs.Trace.Contexts
/-!
Functions without instructions in their bodies. An entry is the last record of a definition before a
record of another kind, so a call whose jump out follows the definition at once is not entered. The
jump out then leaves the function that made the call, or fails.
-/
set_option autoImplicit false

namespace SolTrace

/-! ### Kinds of records -/

namespace Classification

/-- A call site opens a cause for what follows it, whatever comes before. -/
theorem kindsFrom_site {site : Record} (continues : site.isExit = false)
    (calls : site.isCallSite = true) (rest front : List Record) :
    ∀ previous armed, ∃ before, before.map Prod.fst = front ∧
      kindsFrom previous armed (front ++ site :: rest) =
        before ++ (site, [.jump]) :: kindsFrom (some site) true rest := by
  induction front with
  | nil =>
      intro previous armed
      have kind : kindOf previous rest.head? armed site = some .jump := by
        simp [kindOf, continues, calls]
      have opens : armedAfter armed site (some .jump) = true := by simp [armedAfter]
      refine ⟨[], rfl, ?_⟩
      simp only [List.nil_append, kindsFrom, kind, opens]
      rfl
  | cons record front ih =>
      intro previous armed
      obtain ⟨before, records, kinds⟩ := ih (some record) (armedAfter armed record
        (kindOf previous (front ++ site :: rest).head? armed record))
      refine ⟨(record, (kindOf previous (front ++ site :: rest).head? armed record).toList) ::
        before, by rw [List.map_cons, records], ?_⟩
      rw [List.cons_append, kindsFrom, kinds, List.cons_append]

/-- The entry of the first function is not added after a record that is a step already. -/
theorem enterFirst_split (record : Record) (kind : StepKind)
    (rest : List (Record × List StepKind)) (front : List (Record × List StepKind)) :
    ∃ before kinds, before.map Prod.fst = front.map Prod.fst ∧
      enterFirst (front ++ (record, [kind]) :: rest) =
        before ++ (record, kinds ++ [kind]) :: rest := by
  induction front with
  | nil =>
      rw [List.nil_append, enterFirst]
      split
      · exact ⟨[], [.functionIn], rfl, rfl⟩
      · exact ⟨[], [], rfl, rfl⟩
  | cons entry front ih =>
      obtain ⟨first, kinds⟩ := entry
      cases kinds with
      | nil =>
          obtain ⟨before, added, records, split⟩ := ih
          refine ⟨(first, []) :: before, added, by simp [records], ?_⟩
          rw [List.cons_append, enterFirst, split, List.cons_append]
      | cons other kinds =>
          rw [List.cons_append, enterFirst]
          split
          · exact ⟨(first, .functionIn :: other :: kinds) :: front, [], rfl, rfl⟩
          · exact ⟨(first, other :: kinds) :: front, [], rfl, rfl⟩

end Classification

/-- Whether records are those of a call of a function with an empty body: the call site, records of
the function's definition, and the jump out of it. All contexts that are active at the call site
still are at the jump. -/
structure EmptyCall (function : Node) (site : Record) (leading : List Record) (out : Record) :
    Prop where
  continues : site.isExit = false
  calls : site.isCallSite = true
  kind : function.kind = .functionDefinition
  reached : leading ≠ []
  leading : ∀ record ∈ leading, record.node = function ∧ Quiet .functionDefinition record
  node : out.node = function
  jump : out.mapped.location.jump = .out
  op : out.log.op ≠ "RETURN"
  around : ∀ id ∈ site.active, id ∈ out.active

namespace EmptyCall

variable {function : Node} {site out : Record} {leading : List Record}

theorem known (call : EmptyCall function site leading out) (aligned : out.Aligned) :
    out.function? = some function := by
  have own := out.contract.ast.enclosing?_self aligned.stored
  rw [call.node, call.kind] at own
  rw [Record.function?, call.node]
  exact own

/-- The call becomes a call site and an exit, without an entry between them. -/
theorem ofRecords_eq (call : EmptyCall function site leading out) (aligned : out.Aligned)
    (front back : List Record) :
    ∃ before kinds after, before.map Prod.fst = front ∧
      Classification.ofRecords (front ++ site :: (leading ++ out :: back)) =
        before ++ (site, kinds ++ [.jump]) ::
          (leading.map (fun record => (record, [])) ++ (out, [.functionOut]) :: after) := by
  obtain ⟨opening, listed, kinds⟩ :=
    Classification.kindsFrom_site call.continues call.calls (leading ++ out :: back) front none true
  obtain ⟨previous, quiet⟩ := kindsFrom_quiet (out :: back)
    (Or.inr ⟨out, rfl, by rw [call.node, call.kind]⟩) leading
    (fun record member => (call.leading record member).2) (some site)
  have exits : out.isExit = true := by
    simp [Record.isExit, call.jump, call.node, call.kind, call.known aligned]
  have exit : Classification.kindOf previous back.head? true out = some .functionOut := by
    simp [Classification.kindOf, exits]
  obtain ⟨before, added, records, split⟩ := Classification.enterFirst_split site .jump
    (Classification.kindsFrom (some site) true (leading ++ out :: back)) opening
  refine ⟨before, added, Classification.kindsFrom (some out)
    (Classification.armedAfter true out (some .functionOut)) back, records.trans listed, ?_⟩
  rw [Classification.ofRecords, kinds, split, quiet, Classification.kindsFrom, exit]
  rfl

end EmptyCall

namespace Reduction

/-- After a step that is not an exit, the innermost function runs in an active context. -/
theorem replay_jump_active {state after : Reduction} {record : Record} {kinds : List StepKind}
    (replayed : state.replay (record, kinds ++ [.jump]) = .ok after) :
    ∀ frame ∈ after.frames.head?, frame.context ∈ record.active := by
  obtain ⟨begun, _, ran⟩ := bind_eq_ok.mp replayed
  rw [List.foldlM_append] at ran
  obtain ⟨middle, _, last⟩ := bind_eq_ok.mp ran
  obtain ⟨next, stepped, done⟩ := bind_eq_ok.mp last
  cases stepped
  cases done
  exact (middle.mergeThrough record.index).active_of_dropUnwound record

/-- A jump out leaves the innermost function, if its context is active. -/
theorem replay_exit {state : Reduction} {record : Record}
    (innermost : ∀ frame ∈ state.frames.head?, frame.context ∈ record.active)
    (other : record.node.kind ≠ .variableDeclaration) (op : record.log.op ≠ "RETURN") :
    ∃ ready : Reduction, ready.frames = state.frames ∧ ready.steps = state.steps ∧
      state.replay (record, [.functionOut]) = ready.exitFunction record := by
  refine ⟨(state.mergeThrough record.index).dropUnwound record, ?_, dropUnwound_steps _ record, ?_⟩
  · rw [dropUnwound_frames, mergeThrough_frames]
    cases active : state.frames with
    | nil => rfl
    | cons frame frames =>
        rw [active] at innermost
        exact List.dropWhile_cons_of_neg (by simp [innermost frame rfl])
  · simp only [replay, state.registerLocal_self record other, ok_bind, List.foldlM_cons,
      List.foldlM_nil, replayStep, takeStep, if_neg op]
    exact bind_pure _

end Reduction

/-- The reduction of a trace, from some point of its records on. -/
theorem reduce_of_prefix {registry : Registry} {inputs : TraceInputs} {alignment : Alignment}
    (aligned : Alignment.ofInputs registry inputs = .ok alignment)
    {front back : List (Record × List StepKind)}
    (classified : Classification.ofRecords alignment.records.toList = front ++ back)
    {state : Reduction}
    (replayed : front.foldlM Reduction.replay (Reduction.start inputs alignment) = .ok state) :
    reduce registry inputs =
      (back.foldlM Reduction.replay state).map fun reduced => reduced.steps.toList := by
  rw [reduce, aligned, ok_bind, classified, List.foldlM_append, replayed, ok_bind]
  cases back.foldlM Reduction.replay state <;> rfl

/-- Between the call site and the jump nothing happens, so the jump meets the functions that are
active at the call site. -/
theorem EmptyCall.reduce_eq {registry : Registry} {inputs : TraceInputs} {alignment : Alignment}
    (aligned : Alignment.ofInputs registry inputs = .ok alignment) {function : Node}
    {site out : Record} {leading : List Record} (call : EmptyCall function site leading out)
    {before after : List (Record × List StepKind)} {kinds : List StepKind}
    (classified : Classification.ofRecords alignment.records.toList =
      before ++ (site, kinds ++ [.jump]) ::
        (leading.map (fun record => (record, [])) ++ (out, [.functionOut]) :: after))
    {state : Reduction}
    (replayed : (before ++ [(site, kinds ++ [StepKind.jump])]).foldlM Reduction.replay
      (Reduction.start inputs alignment) = .ok state) :
    ∃ ready : Reduction, ready.frames = state.frames ∧ ready.steps = state.steps ∧
      reduce registry inputs =
        ((ready.exitFunction out).bind fun next => after.foldlM Reduction.replay next).map
          fun reduced => reduced.steps.toList := by
  have quiet := foldlM_quiet state leading (fun record member => by
    simp [(call.leading record member).1, call.kind])
  let opening := before ++ [(site, kinds ++ [StepKind.jump])]
  let definition := leading.map fun record => (record, ([] : List StepKind))
  have reached : (opening ++ definition).foldlM Reduction.replay
      (Reduction.start inputs alignment) = .ok state := by
    rw [List.foldlM_append, replayed, ok_bind, quiet]
  have split : Classification.ofRecords alignment.records.toList =
      opening ++ definition ++ (out, [.functionOut]) :: after := by
    simp [classified, opening, definition]
  have onwards := reduce_of_prefix aligned split reached
  have innermost : ∀ frame ∈ state.frames.head?, frame.context ∈ out.active := by
    rw [List.foldlM_append] at replayed
    obtain ⟨middle, _, last⟩ := bind_eq_ok.mp replayed
    obtain ⟨next, stepped, done⟩ := bind_eq_ok.mp last
    cases done
    intro frame member
    exact call.around _ (Reduction.replay_jump_active stepped frame member)
  have kind : out.node.kind ≠ .variableDeclaration := by simp [call.node, call.kind]
  obtain ⟨ready, frames, steps, exits⟩ := Reduction.replay_exit innermost kind call.op
  rw [List.foldlM_cons, exits] at onwards
  exact ⟨ready, frames, steps, onwards⟩

/-- A call of a function with an empty body is not entered. Its jump out leaves the function that is
active at the call site, if that has the same name, and the trace is refused otherwise. -/
theorem emptyCall_exits {registry : Registry} {inputs : TraceInputs} {alignment : Alignment}
    (aligned : Alignment.ofInputs registry inputs = .ok alignment) {function : Node}
    {site out : Record} {leading front back : List Record}
    (call : EmptyCall function site leading out)
    (records : alignment.records.toList = front ++ site :: (leading ++ out :: back)) :
    ∃ before kinds after, before.map Prod.fst = front ∧
      Classification.ofRecords alignment.records.toList =
        before ++ (site, kinds ++ [.jump]) ::
          (leading.map (fun record => (record, [])) ++ (out, [.functionOut]) :: after) ∧
      ∀ state, (before ++ [(site, kinds ++ [.jump])]).foldlM Reduction.replay
          (Reduction.start inputs alignment) = .ok state →
        (state.frames = [] → reduce registry inputs = .error .emptyCallStack) ∧
        ∀ caller callers, state.frames = caller :: callers →
          (caller.call.function ≠ function.functionName → reduce registry inputs =
            .error (.exitMismatch caller.call.function function.functionName)) ∧
          (caller.call.function = function.functionName → ∃ next step,
            next.frames = callers ∧ next.steps = state.steps.push step ∧
            step.index = out.index ∧ step.kind = .functionOut ∧
            step.calls = Reduction.callsOf (caller :: callers) ∧
            reduce registry inputs = (after.foldlM Reduction.replay next).map
              fun reduced => reduced.steps.toList) := by
  obtain ⟨⟨limit, active, threaded⟩, _⟩ := Alignment.ofInputs_threaded aligned
  have placed : out.Aligned := threaded.aligned out (by simp [records])
  have named : (out.function?.map Node.functionName).getD "" = function.functionName := by
    rw [call.known placed]
    rfl
  obtain ⟨before, kinds, after, listed, classified⟩ := call.ofRecords_eq placed front back
  rw [← records] at classified
  refine ⟨before, kinds, after, listed, classified, ?_⟩
  intro state replayed
  obtain ⟨ready, frames, steps, onwards⟩ := call.reduce_eq aligned classified replayed
  rw [Reduction.exitFunction, frames, named] at onwards
  constructor
  · intro empty
    rw [onwards, empty]
    rfl
  · intro caller callers active
    rw [active] at onwards frames
    constructor
    · intro other
      rw [onwards]
      simp only [if_neg other]
      rfl
    · intro same
      simp only [if_pos same] at onwards
      refine ⟨(ready.emit out .functionOut).leaveFunction, ready.stepAt out .functionOut, ?_, ?_,
        rfl, rfl, ?_, onwards⟩
      · simp [Reduction.emit, frames]
      · simp [Reduction.emit, steps]
      · simp [Reduction.stepAt, Reduction.callsOf, frames]

namespace Sample

/-- A second function, whose body is empty. -/
def hook : Node :=
  { node 4 "FunctionDefinition" [] with attributes := [("name", .string "hook")] }

def hookedRuntime : LinkedCode :=
  { runtime with mapped := [mapped 0 1 .regular, mapped 1 3 .into, mapped 2 4 .regular,
      mapped 3 4 .out] }

def hooked : Contract :=
  { contract with
    ast := ast.put hook
    runtime := hookedRuntime
    creation_within := by simp [LinkedCode.Within, contract, creation]
    runtime_within := by
      simp [LinkedCode.Within, hookedRuntime, mapped, hook, ast, Ast.get?_put, node] }

def hookedRegistry : Registry :=
  .ofContracts [hooked]

theorem hooked_byCode : hookedRegistry.byCode hookedRuntime.id = .ok (hooked, hookedRuntime) :=
  Registry.single_byCode hooked (by decide +kernel) (by decide +kernel) rfl

theorem hooked_identify : hookedRegistry.identify hookedRuntime.text = .ok hookedRuntime.id :=
  Registry.single_identify hooked (by decide +kernel) (by decide +kernel)

/-- Where the instructions of the functions stand. -/
structure Hooked (known : Registry) (id : BytecodeId) : Prop where
  entry : instructionAt? known id 0 =
    some (hooked, mapped 0 1 .regular, node 1 "FunctionDefinition" [2, 3])
  site : instructionAt? known id 1 =
    some (hooked, mapped 1 3 .into, node 3 "FunctionCall" [])
  definition : instructionAt? known id 2 = some (hooked, mapped 2 4 .regular, hook)
  exit : instructionAt? known id 3 = some (hooked, mapped 3 4 .out, hook)
  outside : instructionAt? known id 4 = none

theorem hooked_places : Hooked hookedRegistry hookedRuntime.id where
  entry := instructionAt?_of_mapped hooked_byCode rfl (by rfl)
  site := instructionAt?_of_mapped hooked_byCode rfl (by rfl)
  definition := instructionAt?_of_mapped hooked_byCode rfl (by rfl)
  exit := instructionAt?_of_mapped hooked_byCode rfl (by rfl)
  outside := instructionAt?_of_unmapped hooked_byCode rfl

/-- The first function calls the second one. -/
def callsHook : Execution :=
  .next (log "JUMPDEST" 0 1 []) <|
  .next (log "JUMP" 1 1 []) <|
  .next (log "JUMPDEST" 2 1 []) <|
  .next (log "JUMP" 3 1 []) <|
  .halts (log "STOP" 4 1 [])

def hookEntry : Record :=
  recordOf hooked 0 (log "JUMPDEST" 0 1 []) (mapped 0 1 .regular)
    (node 1 "FunctionDefinition" [2, 3])

def hookSite : Record :=
  recordOf hooked 1 (log "JUMP" 1 1 []) (mapped 1 3 .into) (node 3 "FunctionCall" [])

def hookDefinition : Record :=
  recordOf hooked 2 (log "JUMPDEST" 2 1 []) (mapped 2 4 .regular) hook

def hookExit : Record :=
  recordOf hooked 3 (log "JUMP" 3 1 []) (mapped 3 4 .out) hook

def callsHookRecords : List Record :=
  [hookEntry, hookSite, hookDefinition, hookExit]

theorem emptyCall_hook : EmptyCall hook hookSite [hookDefinition] hookExit where
  continues := rfl
  calls := rfl
  kind := rfl
  reached := by simp
  leading := by
    intro record member
    rw [List.mem_singleton.mp member]
    exact ⟨rfl, by decide, rfl, rfl, rfl, Or.inr ⟨rfl, rfl⟩⟩
  node := rfl
  jump := rfl
  op := by decide
  around := fun _ member => member

theorem callsHook_records {known : Registry} {stable : TraceInputs} {id : BytecodeId}
    (places : Hooked known id) :
    (callsHook.located known stable id (.deployed 0x10) 1).filterMap (Located.record? known) =
      callsHookRecords := by
  simp [callsHook, Execution.located, Execution.executed, Located.record?, Execution.root, log,
    places.entry, places.site, places.definition, places.exit, places.outside]
  rfl

theorem callsHook_wellFormed {known : Registry} {stable : TraceInputs} {id : BytecodeId} :
    callsHook.WellFormed known stable id 1 :=
  ⟨rfl, rfl, rfl, rfl, rfl, rfl, rfl, rfl, rfl, rfl, rfl, rfl, rfl, rfl, rfl, rfl, rfl, rfl⟩

theorem callsHook_classified :
    Classification.ofRecords callsHookRecords =
      callsHookRecords.zip [[.functionIn], [.jump], [], [.functionOut]] := by
  rfl

/-- At the call site the first function is active. -/
theorem callsHook_replayed {state : Reduction} (none : state.frames = []) :
    ∃ after frame, ((callsHookRecords.zip [[.functionIn], [.jump]]).foldlM Reduction.replay
        state) = .ok after ∧ after.frames = [frame] ∧ frame.call.function = "count" := by
  have standing : Reduction.Standing state [0] 1 [] := ⟨by simp, by simp, [], none, by simp⟩
  have known : hookEntry.function? = some (node 1 "FunctionDefinition" [2, 3]) := rfl
  obtain ⟨entered, frame, first, call, context, stands, _⟩ :=
    Reduction.replay_functionIn standing (rfl : hookEntry.active = [0].reverse) (by decide) rfl rfl
      known (fun declaration member => nomatch member)
  obtain ⟨ready, frames, _, second⟩ :=
    Reduction.replay_step stands (rfl : hookSite.active = [0].reverse)
      (fun declares => nomatch declares) .jump
  refine ⟨ready.emit hookSite .jump, frame, ?_, frames, by rw [call]; rfl⟩
  have listed : callsHookRecords.zip [[.functionIn], [.jump]] =
      [(hookEntry, [StepKind.functionIn]), (hookSite, [.jump])] := rfl
  rw [listed, List.foldlM_cons, first, ok_bind, List.foldlM_cons, second]
  rfl

end Sample

/-- A function calls another one whose body is empty. -/
theorem emptyCall_exits_hook :
    reduce Sample.hookedRegistry (Sample.inputs Sample.callsHook.logs) =
      .error (.exitMismatch "count" "hook") := by
  have runs : (Sample.inputs Sample.callsHook.logs).Runs Sample.hookedRegistry
      Sample.hookedRuntime.id (.deployed 0x10) :=
    ⟨rfl, Sample.hookedRuntime.text, Sample.codeOf? _ 0x10 (Or.inl rfl), Sample.hooked_identify⟩
  obtain ⟨alignment, aligned, _, records⟩ :=
    Execution.ofInputs_located runs Sample.callsHook_wellFormed trivial rfl
  rw [Sample.callsHook_records Sample.hooked_places] at records
  have split : alignment.records.toList = [Sample.hookEntry] ++
      Sample.hookSite :: ([Sample.hookDefinition] ++ Sample.hookExit :: []) := records
  obtain ⟨before, kinds, after, listed, classified, exits⟩ :=
    emptyCall_exits aligned Sample.emptyCall_hook split
  rw [records, Sample.callsHook_classified] at classified
  obtain ⟨opened, rfl⟩ : ∃ opened, before = [opened] := by
    have length := congrArg List.length listed
    rw [List.length_map] at length
    exact List.length_eq_one_iff.mp length
  have opening : Sample.callsHookRecords.zip [[.functionIn], [.jump]] =
      [opened] ++ [(Sample.hookSite, kinds ++ [.jump])] := congrArg (List.take 2) classified
  obtain ⟨state, frame, replayed, frames, name⟩ :=
    Sample.callsHook_replayed (show (Reduction.start (Sample.inputs Sample.callsHook.logs)
      alignment).frames = [] from rfl)
  rw [opening] at replayed
  have refused := ((exits state replayed).2 frame [] frames).1 (by rw [name]; decide)
  rw [name] at refused
  exact refused

end SolTrace
