import SolTrace.Proofs.Trace.Entries
import SolTrace.Proofs.Trace.Lifetimes
/-!
Local variables: where the variables come from that the steps of a trace show. Each step shows what
was bound first under the activations that have the scope in their definitions.
-/
set_option autoImplicit false

namespace SolTrace

open Activation Reduction

/-! ### Steps -/

def Event.record : Event → Record
  | .declares record => record
  | .takes record _ => record

theorem Alignment.record_of_timeline {alignment : Alignment} {event : Event}
    (member : event ∈ alignment.timeline) : event.record ∈ alignment.records.toList := by
  obtain ⟨entry, listed, inside⟩ := List.mem_flatMap.mp (List.mem_reverse.mp member)
  rw [← Classification.ofRecords_records alignment.records.toList]
  have same : event.record = entry.1 := by
    rcases List.mem_cons.mp inside with rfl | taken
    · rfl
    · obtain ⟨kind, _, rfl⟩ := List.mem_map.mp taken
      rfl
  exact same ▸ List.mem_map_of_mem listed

/-- Every step is taken at an event, and shows the state after it unless it is an exit. -/
theorem reduce_layered {registry : Registry} {inputs : TraceInputs} {steps : List Step}
    (reduced : reduce registry inputs = .ok steps) :
    ∃ alignment, Alignment.ofInputs registry inputs = .ok alignment ∧
      ∀ step ∈ steps, ∃ later record past state,
        alignment.timeline = later ++ .takes record step.kind :: past ∧
        Layered (.takes record step.kind :: past) (active (.takes record step.kind :: past)) state ∧
        step.index = record.index ∧
        (step.kind = .functionOut ∧ step.assignments = [] ∨
          step = state.stepAt record step.kind) := by
  obtain ⟨alignment, last, aligned, performed, rfl⟩ := reduce_events reduced
  refine ⟨alignment, aligned, fun step member => ?_⟩
  rcases foldrM_steps _ performed step (Array.mem_toList_iff.mp member) with
    none | ⟨later, record, past, state, split, shown, index, shows⟩
  · simp [Reduction.start] at none
  · exact ⟨later, record, past, state, split, foldrM_layered _ shown, index, shows⟩

/-! ### Numbers of variables -/

theorem parameter?_id {record : Record} {function : Node} {var : NodeId} {assignment : Assignment}
    (found : parameter? record function var = some assignment) :
    assignment.var.id = var ∧ ∃ declaration ∈ record.contract.ast.signature function,
      declaration.id = var := by
  obtain ⟨entry, member, kept⟩ := List.exists_of_findSome?_eq_some found
  obtain ⟨declared, known, rfl⟩ := Option.map_eq_some_iff.mp kept
  obtain ⟨known, same⟩ := Option.filter_eq_some_iff.mp known
  have same : declared.id = var := beq_iff_eq.mp same
  have listed := List.mem_reverse.mp (List.of_mem_zip (List.mem_reverse.mp member)).1
  cases made : record.contract.resolver.declared entry.1 with
  | error error =>
      rw [made] at known
      cases known
  | ok result =>
      rw [made] at known
      cases known
      exact ⟨by rw [localAssignment_var, withName_id, same], entry.1, listed,
        by rw [← (declared_id made).1, same]⟩

/-- What an event binds is declared by it, or is a parameter of the function that it enters. -/
theorem Event.binds?_cases {event : Event} {scope var : NodeId} {assignment : Assignment}
    (binds : event.binds? scope var = some assignment) :
    assignment.var.id = var ∧
      (declaredLocal? event.record = some (scope, assignment) ∨
        ∃ function, event.record.function? = some function ∧
          ∃ declaration ∈ event.record.contract.ast.signature function, declaration.id = var) := by
  cases event with
  | declares record =>
      obtain ⟨⟨home, declared⟩, kept, rfl⟩ := Option.map_eq_some_iff.mp binds
      obtain ⟨known, same⟩ := Option.filter_eq_some_iff.mp kept
      simp only [Bool.and_eq_true, beq_iff_eq] at same
      obtain ⟨rfl, rfl⟩ := same
      exact ⟨rfl, .inl known⟩
  | takes record kind =>
      cases kind with
      | functionIn =>
          obtain ⟨function, known, rest⟩ := Option.bind_eq_some_iff.mp binds
          split at rest
          · obtain ⟨id, listed⟩ := parameter?_id rest
            exact ⟨id, .inr ⟨function, known, listed⟩⟩
          · cases rest
      | functionOut => cases binds
      | jump => cases binds
      | line => cases binds

theorem BoundGlobal.mem_globals {past : List Event} {scope var : NodeId} {assignment : Assignment}
    (bound : BoundGlobal past scope var assignment) :
    assignment.var.id = var ∧ ∃ record, .takes record .functionIn ∈ past ∧
      assignment ∈ record.contract.globals := by
  obtain ⟨record, entered, found⟩ := bound
  obtain ⟨listed, id, _⟩ := Contract.mem_globals_of_globalAt? found
  exact ⟨id, record, entered, listed⟩

theorem Kept.id {past : List Event} {scope var : NodeId} {home : List Nat}
    {assignment : Assignment} (kept : Kept past scope var home (some assignment)) :
    assignment.var.id = var := by
  rcases kept with first | ⟨global, same, bound⟩
  · obtain ⟨_, _, _, _, binds, _⟩ := firstBound?_eq_some first.symm
    exact (Event.binds?_cases binds).1
  · cases same
    exact bound.mem_globals.1

/-- What a step lists is bound under its own number in one of the scopes around. -/
theorem Layered.mem_visible {past : List Event} {stack : List Invocation} {state : Reduction}
    (layered : Layered past stack state) {record : Record} {kind : StepKind}
    {assignment : Assignment} :
    assignment ∈ state.visible record kind ↔ kind ≠ .functionOut ∧
      (assignment.var.isReturn = true → record.node.kind = .returnStatement) ∧
      state.scopes.first? assignment.var.id (scopesAround record) = some assignment := by
  rw [visible]
  by_cases leaves : kind = .functionOut
  · simp [leaves]
  · rw [if_neg leaves, List.mem_filter, Scopes.mem_collect]
    constructor
    · rintro ⟨⟨var, found⟩, named⟩
      obtain ⟨scope, _, bound⟩ := List.exists_of_findSome?_eq_some found
      have kept := layered.binding scope var
      rw [bound] at kept
      refine ⟨leaves, fun unnamed => ?_, by rw [kept.id, found]⟩
      simpa [unnamed] using named
    · rintro ⟨_, named, found⟩
      refine ⟨⟨_, found⟩, ?_⟩
      cases unnamed : assignment.var.isReturn with
      | false => simp
      | true => simp [named unnamed]

/-! ### Bindings and activations -/

/-- Whether an event has bound a variable in a scope, as the first one while the same activations
had that scope in their definitions as have it now. -/
structure BoundAt (past : List Event) (scope : NodeId) (assignment : Assignment) (event : Event)
    (earlier : List Event) : Prop where
  happened : event :: earlier <:+ past
  binds : event.binds? scope assignment.var.id = some assignment
  home : owners scope (active (event :: earlier)) = owners scope (active past)
  first : firstBound? scope assignment.var.id (owners scope (active past)) earlier = none

theorem BoundAt.of_firstBound? {past : List Event} {scope : NodeId} {assignment : Assignment}
    (found : firstBound? scope assignment.var.id (owners scope (active past)) past =
      some assignment) :
    ∃ event earlier, BoundAt past scope assignment event earlier := by
  obtain ⟨since, event, earlier, whole, binds, home, first⟩ := firstBound?_eq_some found
  exact ⟨event, earlier, ⟨since, whole.symm⟩, binds, home, first⟩

theorem BoundAt.firstBound? {past earlier : List Event} {scope : NodeId} {assignment : Assignment}
    {event : Event} (bound : BoundAt past scope assignment event earlier) :
    firstBound? scope assignment.var.id (owners scope (active past)) past = some assignment := by
  obtain ⟨⟨since, whole⟩, binds, home, first⟩ := bound
  have here : SolTrace.firstBound? scope assignment.var.id (owners scope (active past))
      (event :: earlier) = some assignment := by
    rw [SolTrace.firstBound?, first, Option.none_or, if_pos home, binds]
  have kept := firstBound?_append here since
  rwa [whole] at kept

/-- An activation that has a scope in its definition was on the stack when what is bound there was
bound. -/
theorem BoundAt.running {past earlier : List Event} {scope : NodeId} {assignment : Assignment}
    {event : Event} (bound : BoundAt past scope assignment event earlier) {invocation : Invocation}
    (running : invocation ∈ active past) (own : scope ∈ invocation.nodes) :
    invocation ∈ active (event :: earlier) := by
  obtain ⟨⟨since, rfl⟩, _, home, _⟩ := bound
  have owner : invocation.number ∈ owners scope (active (event :: earlier)) := by
    rw [home]
    exact List.mem_map_of_mem (List.mem_filter.mpr ⟨running, by simpa using own⟩)
  obtain ⟨entered, listed, number⟩ := List.mem_map.mp owner
  have before := (List.mem_filter.mp listed).1
  obtain ⟨front, stack, here⟩ := List.append_of_mem before
  obtain ⟨front', stack', there⟩ := List.append_of_mem running
  rw [← (List.cons.inj (active_eq here there number)).1]
  exact before

/-- Where the variables come from that the steps of a trace show. Each is a state variable of a
contract that a function was entered in before, or an event has bound it in a scope around the
step, as the first one while the same activations had that scope in their definitions. So the
activations of the function around that scope, if any is still on the stack, were on it already,
however often the function was called before. Without one nothing tells calls apart: of the local
variables of a modifier, which belong to no function's definition, the first binding of all
stays. -/
theorem locals_bound (registry : Registry) (inputs : TraceInputs) (steps : List Step)
    (reduced : reduce registry inputs = .ok steps) :
    ∃ alignment, Alignment.ofInputs registry inputs = .ok alignment ∧
      ∀ step ∈ steps, step.kind = .functionOut ∧ step.assignments = [] ∨
        ∃ later record before, alignment.timeline = later ++ .takes record step.kind :: before ∧
          let past := .takes record step.kind :: before
          step.index = record.index ∧
          step.calls = ((active past).map Invocation.call).reverse ∧
          ∀ assignment ∈ step.assignments,
            (∃ entry, .takes entry .functionIn ∈ past ∧ assignment ∈ entry.contract.globals) ∨
              ∃ scope ∈ scopesAround record, ∃ event earlier,
                BoundAt past scope assignment event earlier ∧
                ∀ invocation ∈ active past, scope ∈ invocation.nodes →
                  invocation ∈ active (event :: earlier) := by
  obtain ⟨alignment, aligned, shown⟩ := reduce_layered reduced
  refine ⟨alignment, aligned, fun step member => ?_⟩
  obtain ⟨later, record, before, state, split, layered, index, leaves | shows⟩ := shown step member
  · exact .inl leaves
  refine .inr ⟨later, record, before, split, index, ?_, fun assignment listed => ?_⟩
  · rw [shows]
    exact layered.calls
  · rw [shows] at listed
    obtain ⟨_, _, found⟩ := layered.mem_visible.mp listed
    obtain ⟨scope, around, bound⟩ := List.exists_of_findSome?_eq_some found
    have kept := layered.binding scope assignment.var.id
    rw [bound] at kept
    rcases kept with first | ⟨global, same, entered⟩
    · obtain ⟨event, earlier, bound⟩ := BoundAt.of_firstBound? first.symm
      exact .inr ⟨scope, around, event, earlier, bound, fun _ running own =>
        bound.running running own⟩
    · cases same
      exact .inl entered.mem_globals.2

namespace Sample

theorem spender_byCode :
    (Registry.ofContracts [spender]).byCode spendingRuntime.id = .ok (spender, spendingRuntime) :=
  Registry.single_byCode spender (by decide +kernel) (by decide +kernel) rfl

theorem spender_identify :
    (Registry.ofContracts [spender]).identify spendingRuntime.text = .ok spendingRuntime.id :=
  Registry.single_identify spender (by decide +kernel) (by decide +kernel)

/-- Where the instructions of the function stand. -/
structure Spends (known : Registry) (id : BytecodeId) : Prop where
  entry : instructionAt? known id 0 = some (spender, mapped 0 1 .regular, spend)
  declaration : instructionAt? known id 1 = some (spender, mapped 1 5 .regular, change)
  site : instructionAt? known id 2 = some (spender, mapped 2 3 .into, node 3 "FunctionCall" [])
  call : instructionAt? known id 4 = some (spender, mapped 4 3 .regular, node 3 "FunctionCall" [])

theorem spends : Spends (.ofContracts [spender]) spendingRuntime.id where
  entry := instructionAt?_of_mapped spender_byCode rfl (by rfl)
  declaration := instructionAt?_of_mapped spender_byCode rfl (by rfl)
  site := instructionAt?_of_mapped spender_byCode rfl (by rfl)
  call := instructionAt?_of_mapped spender_byCode rfl (by rfl)

/-- A call of the account's own code. -/
def reenter : StructLog := log "CALL" 4 1 [7, 8, 0x10, 0]

def spendsAt (depth : Nat) (stack : List Word) : Entry :=
  ⟨spend, [], log "JUMPDEST" 0 depth stack⟩

/-- The function calls itself by a message call that is reverted, declares its variable and calls
itself internally. The callee does both as well, without the message call, and all is reverted. -/
def retrying : Run where
  before := []
  entry := spendsAt 1 [7, 8]
  body := .message reenter [] (spendsAt 2 [7]) .cut (log "REVERT" 4 2 []) <|
    .plain (log "SSTORE" 1 1 [7, 8, 9]) <|
    .internal (log "JUMP" 2 1 [7, 8, 9]) (spendsAt 1 [7, 8, 9, 10])
      (.plain (log "SSTORE" 1 1 [7, 8, 9, 10]) <|
        .internal (log "JUMP" 2 1 [7, 8, 9, 10]) (spendsAt 1 [7, 8, 9, 10, 11]) .cut .cut)
      .cut
  halt := log "REVERT" 4 1 []

theorem spendsAt_wellFormed {known : Registry} {id : BytecodeId} (places : Spends known id)
    (depth : Nat) (stack : List Word) : (spendsAt depth stack).WellFormed known id depth where
  leading := by simp [spendsAt]
  ordinary := ⟨rfl, rfl, rfl, rfl⟩
  last := by
    refine ⟨_, _, _, places.entry, rfl, rfl, fun declaration listed => ?_⟩
    have only : declaration ∈ [amount] := listed
    rw [List.mem_singleton.mp only]
    exact ⟨_, amount_declared⟩
  kind := rfl

theorem spends_revert {known : Registry} {id : BytecodeId} (places : Spends known id)
    (depth : Nat) (body : Body) : Halting known id depth body (log "REVERT" 4 depth []) where
  depth := rfl
  op := .inr (.inr rfl)
  complete := .inr rfl
  mapped := ifMapped_of_mapped places.call ⟨rfl, fun declares => nomatch declares⟩

theorem declares_wellFormed {known : Registry} {stable : TraceInputs} {id : BytecodeId}
    (places : Spends known id) {halt : StructLog} {rest : Body}
    (formed : rest.WellFormed known stable id 1 halt spend) (stack : List Word) :
    (Body.plain (log "SSTORE" 1 1 stack) rest).WellFormed known stable id 1 halt spend :=
  ⟨⟨rfl, rfl, rfl, rfl⟩,
    ifMapped_of_mapped places.declaration ⟨rfl, fun _ => ⟨_, change_declared⟩⟩, formed⟩

theorem recurs_wellFormed {known : Registry} {stable : TraceInputs} {id : BytecodeId}
    (places : Spends known id) {halt : StructLog} {callee : Body}
    (leads : callee.Leads known id halt)
    (formed : callee.WellFormed known stable id 1 halt spend) (stack inner : List Word) :
    (Body.internal (log "JUMP" 2 1 stack) (spendsAt 1 inner) callee .cut).WellFormed known stable
      id 1 halt spend :=
  ⟨⟨rfl, rfl, rfl, rfl⟩, ⟨_, _, _, places.site, rfl, rfl⟩, spendsAt_wellFormed places 1 inner,
    leads, formed, .inr rfl, trivial⟩

theorem retrying_wellFormed {known : Registry} {stable : TraceInputs} {id : BytecodeId}
    (places : Spends known id) (enters : Execution.innerCode? known stable id reenter = some id) :
    retrying.WellFormed known stable id 1 where
  before := by simp [retrying]
  entry := spendsAt_wellFormed places 1 [7, 8]
  leads := ⟨_, _, _, places.call, fun kind => nomatch kind⟩
  body := by
    refine ⟨rfl, rfl, rfl, ⟨_, _, _, places.call, by decide, fun declares => nomatch declares⟩,
      ⟨id, enters, by simp, spendsAt_wellFormed places 2 [7],
        ⟨_, _, _, places.call, fun kind => nomatch kind⟩, trivial, spends_revert places 2 .cut⟩,
      declares_wellFormed places (recurs_wellFormed places ?_ ?_ _ _) _⟩
    · exact ⟨ifMapped_of_mapped places.declaration (fun kind => nomatch kind),
        fun missing => nomatch places.declaration.symm.trans missing⟩
    · have leads : Body.cut.Leads known id (log "REVERT" 4 1 []) :=
        ⟨_, _, _, places.call, fun kind => nomatch kind⟩
      exact declares_wellFormed places (recurs_wellFormed places leads trivial _ _) _
  halting := spends_revert places 1 _

/-- A record of the code in the context of the call. -/
def innerRecord (index : Nat) (log : StructLog) (mapped : MappedInstruction) (node : Node) :
    Record :=
  ⟨index, log, spender, mapped, node, 1, .deployed 0x10, [0, 1]⟩

def reentering : Record :=
  recordOf spender 1 reenter (mapped 4 3 .regular) (node 3 "FunctionCall" [])

def reentered : Record :=
  innerRecord 2 (log "JUMPDEST" 0 2 [7]) (mapped 0 1 .regular) spend

def reverted : Record :=
  innerRecord 3 (log "REVERT" 4 2 []) (mapped 4 3 .regular) (node 3 "FunctionCall" [])

/-- A record that calls the function internally. -/
def recurring (index : Nat) (stack : List Word) : Record :=
  recordOf spender index (log "JUMP" 2 1 stack) (mapped 2 3 .into) (node 3 "FunctionCall" [])

def ended : Record :=
  recordOf spender 10 (log "REVERT" 4 1 []) (mapped 4 3 .regular) (node 3 "FunctionCall" [])

def retryingRecords : List Record :=
  [spendEntry 0 [7, 8], reentering, reentered, reverted, changeRecord 4 [7, 8, 9],
    recurring 5 [7, 8, 9], spendEntry 6 [7, 8, 9, 10], changeRecord 7 [7, 8, 9, 10],
    recurring 8 [7, 8, 9, 10], spendEntry 9 [7, 8, 9, 10, 11], ended]

theorem retrying_records {known : Registry} {stable : TraceInputs} {id : BytecodeId}
    (places : Spends known id) (enters : Execution.innerCode? known stable id reenter = some id) :
    (retrying.execution.located known stable id (.deployed 0x10) 1).filterMap
      (Located.record? known) = retryingRecords := by
  simp only [retrying, Run.execution, Body.execution, Entry.execution, chain, spendsAt,
    List.foldr_nil, Execution.located, Execution.executed, Execution.root, enters]
  simp [Located.record?, log, reenter, places.entry, places.declaration, places.site, places.call]
  rfl

/-- The events before the first declaration. -/
def failed : List Event :=
  [.declares reverted, .takes reentered .functionIn, .declares reentered, .takes reentering .jump,
    .declares reentering, .takes (spendEntry 0 [7, 8]) .functionIn,
    .declares (spendEntry 0 [7, 8])]

/-- The events before the first internal call. -/
def retried : List Event :=
  .declares (recurring 5 [7, 8, 9]) :: .declares (changeRecord 4 [7, 8, 9]) :: failed

/-- The events before the second declaration. -/
def recurred : List Event :=
  .takes (spendEntry 6 [7, 8, 9, 10]) .functionIn :: .declares (spendEntry 6 [7, 8, 9, 10]) ::
    .takes (recurring 5 [7, 8, 9]) .jump :: retried

/-- The events before the second internal call. -/
def declared : List Event :=
  .declares (recurring 8 [7, 8, 9, 10]) :: .declares (changeRecord 7 [7, 8, 9, 10]) :: recurred

/-- All events. -/
def retryingEvents : List Event :=
  .declares ended :: .takes (spendEntry 9 [7, 8, 9, 10, 11]) .functionIn ::
    .declares (spendEntry 9 [7, 8, 9, 10, 11]) :: .takes (recurring 8 [7, 8, 9, 10]) .jump ::
      declared

theorem retrying_timeline {alignment : Alignment}
    (records : alignment.records.toList = retryingRecords) :
    alignment.timeline = retryingEvents := by
  rw [Alignment.timeline, records]
  rfl

/-- The indices of the logs at which the events take steps. -/
def indices (events : List Event) : List Nat :=
  events.filterMap fun event =>
    match event with
    | .declares _ => none
    | .takes record _ => some record.index

theorem mem_indices {events : List Event} {record : Record} {kind : StepKind}
    (member : .takes record kind ∈ events) : record.index ∈ indices events :=
  List.mem_filterMap.mpr ⟨_, member, rfl⟩

/-- A step is told by the index of its log, if no other event takes one there. -/
theorem split_at_index {later past front back : List Event} {record other : Record}
    {kind step : StepKind}
    (split : later ++ .takes record kind :: past = front ++ .takes other step :: back)
    (index : record.index = other.index) (only : other.index ∉ indices (front ++ back)) :
    record = other ∧ kind = step ∧ past = back := by
  rw [← index] at only
  rcases List.append_eq_append_iff.mp split with ⟨between, rfl, rest⟩ | ⟨between, rfl, rest⟩
  · cases between with
    | nil =>
        obtain ⟨same, rfl⟩ := List.cons.inj rest
        exact ⟨(Event.takes.inj same).1, (Event.takes.inj same).2, rfl⟩
    | cons first between =>
        obtain ⟨rfl, -⟩ := List.cons.inj rest
        exact absurd (mem_indices (show Event.takes record kind ∈ _ by simp)) only
  · cases between with
    | nil =>
        obtain ⟨same, rfl⟩ := List.cons.inj rest
        exact ⟨(Event.takes.inj same).1.symm, (Event.takes.inj same).2.symm, rfl⟩
    | cons first between =>
        obtain ⟨-, rfl⟩ := List.cons.inj rest
        exact absurd (mem_indices (show Event.takes record kind ∈ _ by simp)) only

/-- The two internal calls are the only steps of their logs. -/
theorem retrying_split {later past : List Event} {record : Record} {kind : StepKind}
    (split : retryingEvents = later ++ .takes record kind :: past) :
    (record.index = 5 → record = recurring 5 [7, 8, 9] ∧ kind = .jump ∧ past = retried) ∧
      (record.index = 8 →
        record = recurring 8 [7, 8, 9, 10] ∧ kind = .jump ∧ past = declared) := by
  have first : later ++ .takes record kind :: past = retryingEvents.take 8 ++
      .takes (recurring 5 [7, 8, 9]) .jump :: retried := split.symm
  have second : later ++ .takes record kind :: past = retryingEvents.take 3 ++
      .takes (recurring 8 [7, 8, 9, 10]) .jump :: declared := split.symm
  exact ⟨fun index => split_at_index first index (by decide),
    fun index => split_at_index second index (by decide)⟩

theorem retrying_enters : Execution.innerCode? (.ofContracts [spender])
    (inputs retrying.execution.logs) spendingRuntime.id reenter = some spendingRuntime.id := by
  have called : Alignment.called? (inputs retrying.execution.logs) reenter =
      some (Address.ofWord 0x10, spendingRuntime.text) := called?_deployed _ rfl (.inl rfl)
  exact (Alignment.innerCode?_of_called rfl called spender_identify spendingRuntime.id).1

theorem retrying_expected {known : Registry} {stable : TraceInputs} {id : BytecodeId}
    (enters : Execution.innerCode? known stable id reenter = some id) :
    (events 0 (retrying.expected known stable id (.deployed 0x10))).map
        (fun event => (event.1, event.2.1)) =
      [(0, .functionIn), (1, .jump), (2, .functionIn), (5, .jump), (6, .functionIn), (8, .jump),
        (9, .functionIn)] := by
  simp only [Run.expected, Body.expected, retrying, enters, Option.getD_some]
  rfl

/-- The trace is reduced, and the calls are steps. -/
theorem retrying_reduces :
    ∃ steps, reduce (.ofContracts [spender]) (inputs retrying.execution.logs) = .ok steps ∧
      ((steps.filter fun step => step.kind ≠ .line).map fun step => (step.index, step.kind)) =
        [(0, .functionIn), (1, .jump), (2, .functionIn), (5, .jump), (6, .functionIn), (8, .jump),
          (9, .functionIn)] ∧
      ∀ alignment, Alignment.ofInputs (.ofContracts [spender])
        (inputs retrying.execution.logs) = .ok alignment →
          alignment.records.toList = retryingRecords := by
  have runs : (inputs retrying.execution.logs).Runs (.ofContracts [spender]) spendingRuntime.id
      (.deployed 0x10) :=
    ⟨rfl, spendingRuntime.text, codeOf? _ 0x10 (.inl rfl), spender_identify⟩
  have wellFormed := retrying_wellFormed spends retrying_enters
  obtain ⟨steps, reduced, shown⟩ := run_reduces runs wellFormed rfl
  refine ⟨steps, reduced, ?_, ?_⟩
  · have same := retrying_expected retrying_enters
    rw [← shown.events, List.map_map] at same
    exact same
  · intro alignment aligned
    obtain ⟨other, same, _, records⟩ :=
      Execution.ofInputs_located runs (run_wellFormed wellFormed) (run_halts retrying) rfl
    rw [aligned] at same
    cases same
    rw [records, retrying_records spends retrying_enters]

/-- Functions of the contract only are entered. -/
theorem retrying_own {later past : List Event} (split : retryingEvents = later ++ past)
    {entry : Record} (entered : .takes entry .functionIn ∈ past) : entry.contract = spender := by
  have listed : .takes entry .functionIn ∈ retryingEvents :=
    split ▸ List.mem_append_right _ entered
  simp only [retryingEvents, declared, recurred, retried, failed, List.mem_cons,
    Event.takes.injEq, reduceCtorEq, and_false, and_true, List.not_mem_nil, or_false,
    false_or] at listed
  rcases listed with rfl | rfl | rfl | rfl <;> rfl

/-- Of the scopes around a call, that of the function has the parameter. -/
theorem parameter_bound {past : List Event} {scope : NodeId} {assignment known : Assignment}
    (around : scope ∈ ([3, 2, 1] : List NodeId))
    (call : firstBound? 3 8 (owners 3 (active past)) past = none)
    (block : firstBound? 2 8 (owners 2 (active past)) past = none)
    (function : firstBound? 1 8 (owners 1 (active past)) past = some known)
    (first : firstBound? scope 8 (owners scope (active past)) past = some assignment) :
    assignment = known := by
  simp only [List.mem_cons, List.not_mem_nil, or_false] at around
  rcases around with rfl | rfl | rfl
  · simp [call] at first
  · simp [block] at first
  · exact Option.some.inj (first.symm.trans function)

end Sample

/-- At both internal calls the parameter is where the function that makes the call has it: not
where the call that was reverted had it, and in the second one not where the first one has it. -/
theorem locals_bound_retrying :
    ∃ steps, reduce (.ofContracts [Sample.spender])
        (Sample.inputs Sample.retrying.execution.logs) = .ok steps ∧
      ((steps.filter fun step => step.kind ≠ .line).map fun step => (step.index, step.kind)) =
        [(0, .functionIn), (1, .jump), (2, .functionIn), (5, .jump), (6, .functionIn), (8, .jump),
          (9, .functionIn)] ∧
      ∀ step ∈ steps, ∀ assignment ∈ step.assignments, assignment.var.id = 8 →
        (step.index = 5 → assignment = localAssignment Sample.amountVar 1) ∧
          (step.index = 8 → assignment = localAssignment Sample.amountVar 3) := by
  obtain ⟨steps, reduced, calls, records⟩ := Sample.retrying_reduces
  obtain ⟨alignment, aligned, bound⟩ := locals_bound _ _ steps reduced
  have timeline := Sample.retrying_timeline (records alignment aligned)
  refine ⟨steps, reduced, calls, fun step member assignment listed var => ?_⟩
  rcases bound step member with leaves | ⟨later, record, before, split, here, _, sources⟩
  · simp [leaves.2] at listed
  rw [timeline] at split
  rw [here]
  rcases sources assignment listed with ⟨entry, entered, global⟩ |
    ⟨scope, around, event, earlier, bound, _⟩
  · rw [Sample.retrying_own split entered] at global
    rw [List.mem_singleton.mp global] at var
    exact absurd var (by decide)
  · have first := bound.firstBound?
    rw [var] at first
    constructor
    · intro index
      obtain ⟨rfl, same, rfl⟩ := (Sample.retrying_split split).1 index
      rw [same] at first
      exact Sample.parameter_bound around rfl rfl rfl first
    · intro index
      obtain ⟨rfl, same, rfl⟩ := (Sample.retrying_split split).2 index
      rw [same] at first
      exact Sample.parameter_bound around rfl rfl rfl first

end SolTrace
