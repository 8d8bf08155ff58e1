import SolTrace.Proofs.Trace.Replay
/-!
Progress through a trace: what the logs of a function do to the active functions and to the steps,
whether or not their instructions are mapped.
-/
set_option autoImplicit false

namespace SolTrace

open Activation Reduction

/-! ### Expected steps -/

/-- What is expected at the logs from an index on, apart from statements. -/
def events (index : Nat) (expected : List Expected) : List (Nat × StepKind × List CallFrame) :=
  (expected.zipIdx index).filterMap fun (expected, index) =>
    expected.kind.map fun kind => (index, kind, expected.calls)

/-- Whether steps are those that are expected from an index on. Statements may stand between them;
they too have the expected calls. -/
structure Shows (index : Nat) (expected : List Expected) (steps : List Step) : Prop where
  events : (steps.filter fun step => step.kind ≠ .line).map
    (fun step => (step.index, step.kind, step.calls)) = events index expected
  calls : ∀ step ∈ steps, ∃ position, step.index = index + position ∧
    (expected[position]?).map Expected.calls = some step.calls

namespace Shows

theorem append {index : Nat} {first second : List Expected} {front back : List Step}
    (left : Shows index first front) (right : Shows (index + first.length) second back) :
    Shows index (first ++ second) (front ++ back) := by
  constructor
  · rw [List.filter_append, List.map_append, left.events, right.events]
    simp [SolTrace.events, List.zipIdx_append]
  · intro step member
    rcases List.mem_append.mp member with member | member
    · obtain ⟨position, indexed, calls⟩ := left.calls step member
      obtain ⟨expected, inside, _⟩ := Option.map_eq_some_iff.mp calls
      have below := (List.getElem?_eq_some_iff.mp inside).1
      exact ⟨position, indexed, by rw [List.getElem?_append_left below]; exact calls⟩
    · obtain ⟨position, indexed, calls⟩ := right.calls step member
      refine ⟨first.length + position, by omega, ?_⟩
      rw [List.getElem?_append_right (Nat.le_add_right _ _), Nat.add_sub_cancel_left]
      exact calls

/-- What is expected at a log is a step. -/
theorem exists_step {start index : Nat} {expected : List Expected} {steps : List Step}
    {kind : StepKind} (shows : Shows start expected steps)
    (event : (index, kind) ∈ (SolTrace.events start expected).map fun event => (event.1, event.2.1)) :
    ∃ step ∈ steps, step.index = index := by
  rw [← shows.events, List.map_map] at event
  obtain ⟨step, inside, same⟩ := List.mem_map.mp event
  exact ⟨step, (List.mem_filter.mp inside).1, congrArg Prod.fst same⟩

theorem none (index : Nat) {expected : List Expected}
    (silent : ∀ entry ∈ expected, entry.kind = .none) : Shows index expected [] := by
  refine ⟨?_, by simp⟩
  symm
  simp only [List.filter_nil, List.map_nil, SolTrace.events, List.filterMap_eq_nil_iff]
  intro entry member
  have inside := List.fst_mem_of_mem_zipIdx member
  simp [silent entry.1 inside]

theorem one (step : Step) (kind : step.kind ≠ .line) :
    Shows step.index [⟨step.calls, some step.kind⟩] [step] :=
  ⟨by simp [SolTrace.events, kind], by simp⟩

theorem statement (step : Step) (kind : step.kind = .line) :
    Shows step.index [⟨step.calls, .none⟩] [step] :=
  ⟨by simp [SolTrace.events, kind], by simp⟩

end Shows

/-! ### Progress -/

/-- How far the records of a trace have been replayed. -/
structure Progress where
  previous : Option Record
  armed : Bool
  state : Reduction

namespace Progress

/-- Replays the records that are left. -/
def run (progress : Progress) (records : List Record) : Except Error Reduction :=
  (Classification.kindsFrom progress.previous progress.armed records).foldlM Reduction.replay
    progress.state

theorem run_cons {progress : Progress} {record : Record} {records : List Record}
    {kind : Option StepKind} {state : Reduction}
    (classified :
      Classification.kindOf progress.previous records.head? progress.armed record = kind)
    (replayed : progress.state.replay (record, kind.toList) = .ok state) :
    progress.run (record :: records) =
      run ⟨some record, Classification.armedAfter progress.armed record kind, state⟩ records := by
  simp only [run, Classification.kindsFrom, classified, List.foldlM_cons, replayed, ok_bind]

/-- Whether replaying records comes to other ones and shows what is expected of those between. -/
structure Reaches (first : Progress) (records : List Record) (index : Nat)
    (expected : List Expected) (second : Progress) (rest : List Record) : Prop where
  run : first.run records = second.run rest
  shows : ∃ steps, second.state.steps.toList = first.state.steps.toList ++ steps ∧
    Shows index expected steps

theorem Reaches.refl (progress : Progress) (records : List Record) (index : Nat) :
    Reaches progress records index [] progress records :=
  ⟨rfl, [], by simp, Shows.none index (by simp)⟩

theorem Reaches.trans {first second third : Progress} {records middle rest : List Record}
    {index inner : Nat} {front back : List Expected}
    (left : Reaches first records index front second middle)
    (right : Reaches second middle inner back third rest) (inside : inner = index + front.length) :
    Reaches first records index (front ++ back) third rest := by
  subst inside
  obtain ⟨before, push, shown⟩ := left.shows
  obtain ⟨after, pushed, showing⟩ := right.shows
  exact ⟨left.run.trans right.run, before ++ after,
    by rw [pushed, push, List.append_assoc], shown.append showing⟩

theorem Reaches.of_emits {first second : Progress} {records rest : List Record} {index : Nat}
    {kind : StepKind} {calls : List CallFrame} (run : first.run records = second.run rest)
    (emits : Emits first.state second.state index kind calls) :
    Reaches first records index [⟨calls, if kind = .line then none else some kind⟩] second
      rest := by
  obtain ⟨step, pushed, rfl, rfl, rfl⟩ := emits
  refine ⟨run, [step], by simp [pushed], ?_⟩
  by_cases statement : step.kind = .line
  · rw [if_pos statement]
    exact Shows.statement step statement
  · rw [if_neg statement]
    exact Shows.one step statement

end Progress

/-! ### Kinds of records -/

namespace Record

theorem isExit_of_inside {record : Record} (op : record.log.op ≠ "RETURN")
    (inside : record.mapped.location.jump ≠ .out) : record.isExit = false := by
  simp [isExit, op, inside]

theorem not_return_of_isHalt {log : StructLog} (continues : log.isHalt = false) :
    log.op ≠ "RETURN" := by
  rintro op
  simp [StructLog.isHalt, op] at continues

/-- A record that no function is entered or left at. -/
theorem kindOf_regular {record : Record} (previous next : Option Record)
    (op : record.log.op ≠ "RETURN") (isCall : record.log.isCall = false)
    (regular : record.mapped.location.jump = .regular) :
    Classification.kindOf previous next false record =
      if record.isStatement previous then some .line else none := by
  have inside : record.isExit = false := isExit_of_inside op (by simp [regular])
  have site : record.isCallSite = false := by simp [isCallSite, regular, isCall]
  simp [Classification.kindOf, inside, site]

theorem kindOf_site (record : Record) (previous next : Option Record) (armed : Bool)
    (op : record.log.op ≠ "RETURN") (inside : record.mapped.location.jump ≠ .out)
    (site : record.isCallSite = true) :
    Classification.kindOf previous next armed record = some .jump := by
  simp [Classification.kindOf, isExit_of_inside op inside, site]

end Record

/-! ### Logs -/

/-- The numbers of the contexts that are active at a node, innermost first. -/
def ids (visit : Visit) (outer : List Visit) : List Nat :=
  (visit :: outer).map fun visit => visit.context.id

@[simp] theorem recordOn_active (index : Nat) (log : StructLog) (visit : Visit) (outer : List Visit)
    (contract : Contract) (mapped : MappedInstruction) (node : Node) :
    (Located.recordOn ⟨index, log, visit, outer⟩ contract mapped node).active =
      (ids visit outer).reverse := by
  simp [Located.recordOn, Located.path, ids]

theorem ast_of_instructionAt? {registry : Registry} {code : BytecodeId} {pc : Nat}
    {contract : Contract} {mapped : MappedInstruction} {node : Node}
    (found : instructionAt? registry code pc = some (contract, mapped, node)) :
    contract.ast.get? node.id = some node ∧
      ∀ (address : ContextAddress) (function : Node),
        frameOf registry code address function =
          ⟨address, contract.name, function.functionName⟩ := by
  simp only [instructionAt?, Option.bind_eq_bind, Option.bind_eq_some_iff] at found
  obtain ⟨⟨owner, linked⟩, known, entry, _, stored, lookup, equal⟩ := found
  simp only [pure, Option.some.injEq, Prod.mk.injEq] at equal
  obtain ⟨rfl, rfl, rfl⟩ := equal
  constructor
  · rw [owner.ast.keyed entry.node stored lookup]
    exact lookup
  · intro address function
    simp [frameOf, known]

section

variable {registry : Registry} (visit : Visit) (outer : List Visit) {entered : Nat}
  {log : StructLog} {progress : Progress} {frame : Frame} {frames : List Frame}

/-- A log that no function is entered or left at. -/
theorem reaches_regular (index : Nat) (records : List Record) (disarmed : progress.armed = false)
    (standing : Standing progress.state (ids visit outer) entered frames)
    (op : log.op ≠ "RETURN") (isCall : log.isCall = false) (isCreate : log.isCreate = false)
    (regular : IfMapped registry visit.context.code log fun contract jump node =>
      jump = .regular ∧ Resolvable contract node) :
    ∃ after : Progress,
      progress.Reaches ((Located.record? registry ⟨index, log, visit, outer⟩).toList ++ records)
        index [⟨callsOf frames, none⟩] after records ∧
      after.armed = false ∧ Standing after.state (ids visit outer) entered frames := by
  cases found : instructionAt? registry visit.context.code log.pc with
  | none =>
      refine ⟨progress, ⟨?_, [], by simp, Shows.none index (by simp)⟩, disarmed, standing⟩
      simp [Located.record?, found]
  | some place =>
      obtain ⟨contract, mapped, node⟩ := place
      obtain ⟨jump, resolvable⟩ := regular contract mapped node found
      let record := Located.recordOn ⟨index, log, visit, outer⟩ contract mapped node
      have listed : (Located.record? registry ⟨index, log, visit, outer⟩).toList = [record] := by
        simp [Located.record?, found, record]
      have classified : Classification.kindOf progress.previous records.head? progress.armed
          record = if record.isStatement progress.previous then some .line else none := by
        rw [disarmed]
        exact Record.kindOf_regular _ _ op isCall jump
      rw [listed]
      by_cases statement : record.isStatement progress.previous = true
      · rw [if_pos statement] at classified
        obtain ⟨state, replayed, stands, emits⟩ := replay_emit standing
          (recordOn_active index log visit outer contract mapped node) resolvable (Or.inr rfl)
        refine ⟨_, Progress.Reaches.of_emits (Progress.run_cons classified replayed) emits, ?_,
          stands⟩
        simp [Classification.armedAfter, disarmed, record, Located.recordOn, isCreate]
      · rw [if_neg statement] at classified
        obtain ⟨scopes, registered⟩ := progress.state.registerLocal_ok record resolvable
        have replayed : progress.state.replay (record, Option.toList none) =
            .ok { progress.state with scopes } := by
          simp [replay, registered, pure, Except.pure]
        refine ⟨_, ⟨Progress.run_cons classified replayed, [], by simp, Shows.none index (by simp)⟩,
          ?_, standing.congr rfl⟩
        simp [Classification.armedAfter, disarmed, record, Located.recordOn, isCreate]

/-- The site of an internal call or of a message call. -/
theorem reaches_site (index : Nat) (records : List Record)
    (standing : Standing progress.state (ids visit outer) entered frames)
    (op : log.op ≠ "RETURN")
    (site : Mapped registry visit.context.code log fun contract jump node =>
      jump ≠ .out ∧ Resolvable contract node ∧
        (log.isCall = true ∨ jump = .into ∧ node.kind = .functionCall)) :
    ∃ after : Progress,
      progress.Reaches ((Located.record? registry ⟨index, log, visit, outer⟩).toList ++ records)
        index [⟨callsOf frames, some .jump⟩] after records ∧
      after.armed = true ∧ Standing after.state (ids visit outer) entered frames := by
  obtain ⟨contract, mapped, node, found, jump, resolvable, cause⟩ := site
  let record := Located.recordOn ⟨index, log, visit, outer⟩ contract mapped node
  have listed : (Located.record? registry ⟨index, log, visit, outer⟩).toList = [record] := by
    simp [Located.record?, found, record]
  have isCallSite : record.isCallSite = true := by
    rcases cause with isCall | ⟨into, call⟩
    · simp [Record.isCallSite, record, Located.recordOn, isCall]
    · simp [Record.isCallSite, record, Located.recordOn, into, call]
  have classified := Record.kindOf_site record progress.previous records.head? progress.armed op
    jump isCallSite
  obtain ⟨state, replayed, stands, emits⟩ := replay_emit standing
    (recordOn_active index log visit outer contract mapped node) resolvable (Or.inl rfl)
  rw [listed]
  refine ⟨_, Progress.Reaches.of_emits (Progress.run_cons classified replayed) emits, ?_, stands⟩
  simp [Classification.armedAfter]

/-- The jump out of the innermost function. -/
theorem reaches_exit (index : Nat) (records : List Record) (disarmed : progress.armed = false)
    (standing : Standing progress.state (ids visit outer) entered (frame :: frames))
    {depth : Nat} (ordinary : Ordinary depth log) {function : Node}
    (kind : function.kind = .functionDefinition)
    (mapped : Mapped registry visit.context.code log fun _ jump node =>
      jump = .out ∧ node = function)
    (active : frame.call.function = function.functionName) :
    ∃ after : Progress,
      progress.Reaches ((Located.record? registry ⟨index, log, visit, outer⟩).toList ++ records)
        index [⟨callsOf (frame :: frames), some .functionOut⟩] after records ∧
      after.armed = false ∧ Standing after.state (ids visit outer) entered frames := by
  obtain ⟨contract, mapped, function, found, jump, rfl⟩ := mapped
  let record := Located.recordOn ⟨index, log, visit, outer⟩ contract mapped function
  have listed : (Located.record? registry ⟨index, log, visit, outer⟩).toList = [record] := by
    simp [Located.record?, found, record]
  have stored := (ast_of_instructionAt? found).1
  have known : record.function? = some function := by
    have own := contract.ast.enclosing?_self stored
    rwa [kind] at own
  have isExit : record.isExit = true := by
    have out : record.mapped.location.jump = .out := jump
    have node : record.node.kind = .functionDefinition := kind
    simp [Record.isExit, out, node, known]
  have classified : Classification.kindOf progress.previous records.head? progress.armed record =
      some .functionOut := by
    simp [Classification.kindOf, isExit]
  have undeclared : Resolvable contract function := by
    intro declares
    rw [kind] at declares
    contradiction
  obtain ⟨state, replayed, stands, emits⟩ := replay_functionOut standing
    (recordOn_active index log visit outer contract mapped function) undeclared
    (Record.not_return_of_isHalt ordinary.isHalt) known active
  rw [listed]
  refine ⟨_, Progress.Reaches.of_emits (Progress.run_cons classified replayed) emits, ?_, stands⟩
  simp [Classification.armedAfter, disarmed, record, Located.recordOn, ordinary.isCreate]

/-- The log that halts a context. If it returns, the functions of the context have been left. -/
theorem reaches_halt (index : Nat) (records : List Record) (disarmed : progress.armed = false)
    (standing : Standing progress.state (ids visit outer) entered frames)
    {depth : Nat} {body : Body} (halting : Halting registry visit.context.code depth body log)
    (outside : log.op = "RETURN" → ∀ frame ∈ frames, frame.context ≠ visit.context.id) :
    ∃ after : Progress,
      progress.Reaches ((Located.record? registry ⟨index, log, visit, outer⟩).toList ++ records)
        index [⟨callsOf frames, none⟩] after records ∧
      after.armed = false ∧ Standing after.state (ids visit outer) entered frames := by
  have isCall : log.isCall = false := by
    rcases halting.op with op | op | op <;> simp [StructLog.isCall, op]
  have isCreate : log.isCreate = false := by
    rcases halting.op with op | op | op <;> simp [StructLog.isCreate, op]
  by_cases returns : log.op = "RETURN"
  · cases found : instructionAt? registry visit.context.code log.pc with
    | none =>
        refine ⟨progress, ⟨?_, [], by simp, Shows.none index (by simp)⟩, disarmed, standing⟩
        simp [Located.record?, found]
    | some place =>
        obtain ⟨contract, mapped, node⟩ := place
        obtain ⟨_, resolvable⟩ := halting.mapped contract mapped node found
        let record := Located.recordOn ⟨index, log, visit, outer⟩ contract mapped node
        have listed : (Located.record? registry ⟨index, log, visit, outer⟩).toList = [record] := by
          simp [Located.record?, found, record]
        have op : record.log.op = "RETURN" := returns
        have classified : Classification.kindOf progress.previous records.head? progress.armed
            record = some .functionOut := by
          simp [Classification.kindOf, Record.isExit, op]
        obtain ⟨state, replayed, stands, steps⟩ := replay_return standing
          (recordOn_active index log visit outer contract mapped node) resolvable returns
          (outside returns)
        rw [listed]
        refine ⟨_, ⟨Progress.run_cons classified replayed, [], by simp [steps],
          Shows.none index (by simp)⟩, ?_, stands⟩
        simp [Classification.armedAfter, disarmed, record, Located.recordOn, isCreate]
  · exact reaches_regular visit outer index records disarmed standing returns isCall isCreate
      halting.mapped

end

end SolTrace
