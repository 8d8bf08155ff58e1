import SolTrace.Proofs.Trace.Bodies
/-!
Call stacks: the reduction of a trace rebuilds the tree of function activations that was executed.
-/
set_option autoImplicit false

namespace SolTrace

open Activation Reduction

/-! ### Transactions -/

theorem body_halts (body : Body) :
    ∀ rest : Execution, (body.execution rest).Halts ↔ rest.Halts := by
  induction body with
  | exit log => exact fun _ => Iff.rfl
  | cut => exact fun _ => Iff.rfl
  | plain log body ih => exact ih
  | internal site entry callee body calleeIH ih =>
      intro rest
      have entering := chain_halts entry.leading
        (.next entry.last (callee.execution (body.execution rest)))
      exact entering.trans ((calleeIH _).trans (ih rest))
  | message site before entry callee inner body _ ih => exact ih

theorem run_halts (run : Run) : run.execution.Halts :=
  (chain_halts run.before _).mpr ((chain_halts run.entry.leading _).mpr
    ((body_halts run.body (.halts run.halt)).mpr trivial))

theorem run_wellFormed {registry : Registry} {inputs : TraceInputs} {code : BytecodeId}
    {depth : Nat} {run : Run} (wellFormed : run.WellFormed registry inputs code depth) :
    run.execution.WellFormed registry inputs code depth :=
  chain_wellFormed (fun log member => (wellFormed.before log member).1)
    (entry_wellFormed wellFormed.entry
      (body_wellFormed run.body wellFormed.body
        ⟨wellFormed.halting.depth, halting_isHalt wellFormed.halting⟩))

/-- A tree of activations is reduced without an error, to the steps that are expected. -/
theorem run_reduces {registry : Registry} {inputs : TraceInputs} {code : BytecodeId}
    {address : ContextAddress} {depth : Nat} {run : Run} (runs : inputs.Runs registry code address)
    (wellFormed : run.WellFormed registry inputs code depth)
    (trace : inputs.trace.logs = run.execution.logs) :
    ∃ steps, reduce registry inputs = .ok steps ∧
      Shows 0 (run.expected registry inputs code address) steps := by
  obtain ⟨alignment, aligned, _, records⟩ := Execution.ofInputs_located runs
    (run_wellFormed wellFormed) (run_halts run) trace
  let root := Execution.root code address depth
  let start : Progress := ⟨none, true, Reduction.start inputs alignment⟩
  have standing : Standing start.state (ids root []) 1 [] :=
    ⟨by simp, by simp [ids, root, Execution.root], [], rfl, by simp⟩
  have final : run.body.Completes ∨ Execution.halts run.halt = .halts run.halt := Or.inr rfl
  obtain ⟨next, following, inside⟩ := head_of_leads [] run.body root []
    (0 + run.before.length + run.entry.leading.length + 1) 1 wellFormed.body wellFormed.leads final
  have listed : alignment.records.toList = recordsOf registry (run.execution.executed registry
      inputs root [] 0 1) ++ [] := by
    rw [List.append_nil]
    exact records
  have kinds : Classification.ofRecords alignment.records.toList =
      Classification.kindsFrom none true alignment.records.toList := by
    obtain ⟨front, record, _, _, kinds⟩ :=
      opening_kinds wellFormed.before wellFormed.entry following inside
    rw [Classification.ofRecords, listed, Run.execution, kinds none]
    exact enterFirst_quiet front record _
  obtain ⟨opened, frame, first, runs⟩ := opening_reaches root [] run.before wellFormed.before
    wellFormed.entry 0 rfl following inside rfl standing []
  obtain ⟨middle, left, second, leaves⟩ := body_followed run.body root [] _ _ _ _ _ _ _ _ [] frame
    [] opened wellFormed.body wellFormed.entry.kind final runs rfl rfl
  have returned : run.halt.op = "RETURN" →
      ∀ other ∈ left ++ [], other.context ≠ root.context.id := by
    intro returns
    have completes : run.body.Completes := by
      rcases wellFormed.halting.complete with completes | reverts
      · exact completes
      · simp [returns] at reverts
    have calls := leaves.calls
    rw [unfinished_of_completes run.body wellFormed.body completes] at calls
    have nothing : left = [] := by simpa [callsOf] using calls
    simp [nothing]
  obtain ⟨after, third, _, _⟩ := reaches_halt root [] _ [] leaves.disarmed leaves.standing
    wellFormed.halting returned
  have whole := first.trans (second.trans third rfl)
    (by simp only [Entry.expected, List.length_append, List.length_map, List.length_cons,
          List.length_nil]; omega)
  obtain ⟨steps, made, shown⟩ := whole.shows
  have replayed : (Classification.ofRecords alignment.records.toList).foldlM Reduction.replay
      (Reduction.start inputs alignment) = .ok after.state := by
    rw [kinds, listed]
    exact whole.run
  have taken : after.state.steps.toList = steps := by simpa [start, Reduction.start] using made
  refine ⟨steps, ?_, ?_⟩
  · rw [reduce, aligned, ok_bind, replayed, ok_bind, taken]
    rfl
  · rw [List.append_nil, leaves.calls] at shown
    simpa [Run.expected, callsOf, root, Execution.root] using shown

/-- The trace of a tree of activations is reduced without an error. The steps are the entries,
exits and call sites of the tree, each at its log, with statements between them; and at each the
active functions are those of the tree. -/
theorem callStack (registry : Registry) (inputs : TraceInputs) (code : BytecodeId)
    (address : ContextAddress) (depth : Nat) (run : Run)
    (runs : inputs.Runs registry code address)
    (wellFormed : run.WellFormed registry inputs code depth)
    (trace : inputs.trace.logs = run.execution.logs) :
    ∃ steps, reduce registry inputs = .ok steps ∧
      (steps.filter fun step => step.kind ≠ .line).map
          (fun step => (step.index, step.kind, step.calls)) =
        events 0 (run.expected registry inputs code address) ∧
      ∀ step ∈ steps,
        ((run.expected registry inputs code address)[step.index]?).map Expected.calls =
          some step.calls := by
  obtain ⟨steps, reduced, shown⟩ := run_reduces runs wellFormed trace
  refine ⟨steps, reduced, shown.events, ?_⟩
  intro step member
  obtain ⟨position, indexed, calls⟩ := shown.calls step member
  rw [Nat.zero_add] at indexed
  rw [indexed]
  exact calls

theorem instructionAt?_of_mapped {registry : Registry} {code : BytecodeId} {contract : Contract}
    {linked : LinkedCode} {pc : Nat} {mapped : MappedInstruction} {node : Node}
    (known : registry.byCode code = .ok (contract, linked)) (found : linked.at? pc = some mapped)
    (stored : contract.ast.get? mapped.node = some node) :
    instructionAt? registry code pc = some (contract, mapped, node) := by
  simp [instructionAt?, known, found, stored, Except.toOption]

theorem instructionAt?_of_unmapped {registry : Registry} {code : BytecodeId} {contract : Contract}
    {linked : LinkedCode} {pc : Nat} (known : registry.byCode code = .ok (contract, linked))
    (missing : linked.at? pc = none) : instructionAt? registry code pc = none := by
  simp [instructionAt?, known, missing, Except.toOption]

theorem ifMapped_of_mapped {registry : Registry} {code : BytecodeId} {log : StructLog}
    {contract : Contract} {mapped : MappedInstruction} {node : Node}
    {condition : Contract → JumpType → Node → Prop}
    (found : instructionAt? registry code log.pc = some (contract, mapped, node))
    (holds : condition contract mapped.location.jump node) :
    IfMapped registry code log condition := by
  intro other place under same
  rw [found] at same
  cases same
  exact holds

theorem ifMapped_of_unmapped {registry : Registry} {code : BytecodeId} {log : StructLog}
    {condition : Contract → JumpType → Node → Prop}
    (missing : instructionAt? registry code log.pc = none) :
    IfMapped registry code log condition := by
  intro contract mapped node found
  rw [missing] at found
  contradiction

namespace Sample

/-- Where the instructions of the function stand. -/
structure Places (known : Registry) (id : BytecodeId) : Prop where
  entry : instructionAt? known id 0 =
    some (contract, mapped 0 1 .regular, node 1 "FunctionDefinition" [2, 3])
  statement : instructionAt? known id 1 =
    some (contract, mapped 1 2 .regular, node 2 "Assignment" [])
  site : instructionAt? known id 2 =
    some (contract, mapped 2 3 .into, node 3 "FunctionCall" [])
  exit : instructionAt? known id 3 =
    some (contract, mapped 3 1 .out, node 1 "FunctionDefinition" [2, 3])
  call : instructionAt? known id 4 =
    some (contract, mapped 4 3 .regular, node 3 "FunctionCall" [])
  outside : instructionAt? known id 5 = none

theorem places : Places registry runtime.id where
  entry := instructionAt?_of_mapped byCode rfl (by simp [contract, ast, Ast.get?_put, node, mapped])
  statement :=
    instructionAt?_of_mapped byCode rfl (by simp [contract, ast, Ast.get?_put, node, mapped])
  site := instructionAt?_of_mapped byCode rfl (by simp [contract, ast, Ast.get?_put, node, mapped])
  exit := instructionAt?_of_mapped byCode rfl (by simp [contract, ast, Ast.get?_put, node, mapped])
  call := instructionAt?_of_mapped byCode rfl (by simp [contract, ast, Ast.get?_put, node, mapped])
  outside := instructionAt?_of_unmapped byCode rfl

def entry (depth : Nat) : Entry :=
  ⟨node 1 "FunctionDefinition" [2, 3], [], log "JUMPDEST" 0 depth []⟩

/-- The function calls itself, and it calls the other account, where a second activation is cut by
a revert. -/
def activations : Run where
  before := []
  entry := entry 1
  body := .plain (log "SSTORE" 1 1 []) <|
    .internal (log "JUMP" 2 1 []) (entry 1)
      (.plain (log "SSTORE" 1 1 []) (.exit (log "JUMP" 3 1 []))) <|
    .message call [] (entry 2)
      (.internal (log "JUMP" 2 2 []) (entry 2) (.plain (log "SSTORE" 1 2 []) .cut) .cut)
      (log "REVERT" 1 2 []) <|
    .exit (log "JUMP" 3 1 [])
  halt := log "STOP" 5 1 []

theorem entry_wellFormed {known : Registry} {id : BytecodeId} (places : Places known id)
    (depth : Nat) : (entry depth).WellFormed known id depth where
  leading := by simp [entry]
  ordinary := ⟨rfl, rfl, rfl, rfl⟩
  last := by
    refine ⟨_, _, _, places.entry, rfl, rfl, ?_⟩
    intro declaration member
    have none : contract.ast.signature (entry depth).function = [] := rfl
    simp [none] at member
  kind := rfl

section

variable {known : Registry} {stable : TraceInputs} {id : BytecodeId} (places : Places known id)
  (depth : Nat) (halt : StructLog)

include places

theorem statement_wellFormed {rest : Body}
    (formed : rest.WellFormed known stable id depth halt (entry depth).function) :
    (Body.plain (log "SSTORE" 1 depth []) rest).WellFormed known stable id depth halt
      (entry depth).function :=
  ⟨⟨rfl, rfl, rfl, rfl⟩,
    ifMapped_of_mapped places.statement ⟨rfl, fun declares => nomatch declares⟩, formed⟩

theorem statement_leads (rest : Body) :
    (Body.plain (log "SSTORE" 1 depth []) rest).Leads known id halt := by
  refine ⟨ifMapped_of_mapped places.statement (fun kind => nomatch kind), ?_⟩
  intro missing
  exact nomatch places.statement.symm.trans missing

theorem exit_wellFormed :
    (Body.exit (log "JUMP" 3 depth [])).WellFormed known stable id depth halt
      (entry depth).function :=
  ⟨⟨rfl, rfl, rfl, rfl⟩, _, _, _, places.exit, rfl, rfl⟩

theorem recursion_wellFormed {callee rest : Body} (leads : callee.Leads known id halt)
    (formed : callee.WellFormed known stable id depth halt (entry depth).function)
    (returns : callee.Completes ∨ rest = .cut)
    (after : rest.WellFormed known stable id depth halt (entry depth).function) :
    (Body.internal (log "JUMP" 2 depth []) (entry depth) callee rest).WellFormed known stable id
      depth halt (entry depth).function :=
  ⟨⟨rfl, rfl, rfl, rfl⟩, ⟨_, _, _, places.site, rfl, rfl⟩, entry_wellFormed places depth, leads,
    formed, returns, after⟩

/-- A message call of the function at the other account. -/
theorem message_wellFormed {site inner : StructLog} {callee rest : Body}
    (plain : site.depth = 1 ∧ site.isHalt = false) (isCall : site.isCall = true)
    (found : instructionAt? known id site.pc =
      some (contract, mapped 4 3 .regular, node 3 "FunctionCall" []))
    (enters : Execution.innerCode? known stable id site = some id)
    (leads : callee.Leads known id inner)
    (formed : callee.WellFormed known stable id 2 inner (entry 2).function)
    (halting : Halting known id 2 callee inner)
    (after : rest.WellFormed known stable id 1 halt (entry 1).function) :
    (Body.message site [] (entry 2) callee inner rest).WellFormed known stable id 1 halt
      (entry 1).function :=
  ⟨plain.1, plain.2, isCall, ⟨_, _, _, found, by decide, fun declares => nomatch declares⟩,
    ⟨id, enters, by simp, entry_wellFormed places 2, leads, formed, halting⟩, after⟩

/-- A revert leaves the function unfinished. -/
theorem revert_halting (callee : Body) :
    Halting known id depth callee (log "REVERT" 1 depth []) :=
  ⟨rfl, Or.inr (Or.inr rfl), Or.inr rfl,
    ifMapped_of_mapped places.statement ⟨rfl, fun declares => nomatch declares⟩⟩

theorem activations_wellFormed (enters : CallsEnter known stable id) :
    activations.WellFormed known stable id 1 where
  before := by simp [activations]
  entry := entry_wellFormed places 1
  leads := statement_leads places 1 _ _
  body := by
    refine statement_wellFormed places 1 _ (recursion_wellFormed places 1 _
      (statement_leads places 1 _ _) (statement_wellFormed places 1 _ (exit_wellFormed places 1 _))
      (Or.inl trivial) ?_)
    refine message_wellFormed places _ ⟨rfl, rfl⟩ rfl places.call (enters.called id).1 trivial
      ?_ (revert_halting places 2 _) (exit_wellFormed places 1 _)
    exact recursion_wellFormed places 2 _ (statement_leads places 2 _ _)
      (statement_wellFormed places 2 _ trivial) (Or.inr rfl) trivial
  halting := ⟨rfl, Or.inl rfl, Or.inl trivial, ifMapped_of_unmapped places.outside⟩

end

theorem activations_events {known : Registry} {stable : TraceInputs} {id : BytecodeId}
    (enters : CallsEnter known stable id) :
    (events 0 (activations.expected known stable id (.deployed 0x10))).map
        (fun event => (event.1, event.2.1, event.2.2.map CallFrame.address)) =
      [(0, .functionIn, [.deployed 0x10]), (2, .jump, [.deployed 0x10]),
        (3, .functionIn, [.deployed 0x10, .deployed 0x10]),
        (5, .functionOut, [.deployed 0x10, .deployed 0x10]), (6, .jump, [.deployed 0x10]),
        (7, .functionIn, [.deployed 0x10, .deployed 0x20]),
        (8, .jump, [.deployed 0x10, .deployed 0x20]),
        (9, .functionIn, [.deployed 0x10, .deployed 0x20, .deployed 0x20]),
        (12, .functionOut, [.deployed 0x10])] := by
  simp only [Run.expected, Body.expected, activations, (enters.called _).1, Option.getD_some]
  rfl

end Sample

/-- The steps of the activations, with the accounts of the active functions. -/
theorem callStack_activations :
    ∃ steps, reduce Sample.registry (Sample.inputs Sample.activations.execution.logs) = .ok steps ∧
      (steps.filter fun step => step.kind ≠ .line).map (fun step =>
        (step.index, step.kind, step.calls.map CallFrame.address)) =
        [(0, .functionIn, [.deployed 0x10]), (2, .jump, [.deployed 0x10]),
          (3, .functionIn, [.deployed 0x10, .deployed 0x10]),
          (5, .functionOut, [.deployed 0x10, .deployed 0x10]), (6, .jump, [.deployed 0x10]),
          (7, .functionIn, [.deployed 0x10, .deployed 0x20]),
          (8, .jump, [.deployed 0x10, .deployed 0x20]),
          (9, .functionIn, [.deployed 0x10, .deployed 0x20, .deployed 0x20]),
          (12, .functionOut, [.deployed 0x10])] := by
  have enters := Sample.callsEnter Sample.activations.execution.logs
  obtain ⟨steps, reduced, shown, _⟩ :=
    callStack Sample.registry (Sample.inputs Sample.activations.execution.logs) Sample.runtime.id
      (.deployed 0x10) 1 Sample.activations (Sample.runs _)
      (Sample.activations_wellFormed Sample.places enters) rfl
  refine ⟨steps, reduced, ?_⟩
  have same := congrArg (List.map fun event : Nat × StepKind × List CallFrame =>
    (event.1, event.2.1, event.2.2.map CallFrame.address)) shown
  rw [List.map_map] at same
  exact same.trans (Sample.activations_events enters)

end SolTrace
