import SolTrace.Proofs.Trace.StateVariables
/-!
Entries: the state variables that a function sees when it is entered. They are bound for the account
that the code runs on, so code that is entered on the account of the last entry finds bound what
contracts have bound before, and not what its own contract declares.
-/
set_option autoImplicit false

namespace SolTrace

open Activation Reduction

/-! ### Where variables are looked for -/

namespace Record

/-- Whether a function is entered on another account than the function before, so that the state
variables of its contract are bound. -/
def Rebinds (record : Record) (earlier : List Record) : Prop :=
  earlier.head?.map Record.address ≠ some record.address

/-- Whether the contract whose state variables are bound last at an entry is the executing one. -/
def HasBound (record : Record) (earlier : List Record) : Prop :=
  record.Rebinds earlier ∨ (binders earlier).head? = some record.contract

/-- The contract that a record's function is defined in. -/
def home? (record : Record) : Option Node :=
  record.contract.ast.enclosing? record.node.id .contractDefinition

/-- Whether a state variable is declared in the contract that a record's function is defined in, or
in one that it inherits from. If the function is the executing contract's own, all are. -/
def Declares (record : Record) (global : Assignment) : Prop :=
  ∃ home, record.home? = some home ∧
    (home.id = record.contract.node ∨
      global.var.scope ∈ home.id :: (record.contract.scopes[home.id]?).getD [])

/-- What entries have bound under a number in the first of the scopes around a record that binds
one. -/
def firstBound? (record : Record) (entries : List Record) (var : NodeId) : Option Assignment :=
  (scopesAround record).findSome? fun scope => boundAt? entries scope var

end Record

theorem Ast.mem_ancestors_of_enclosing? {ast : Ast} {id : NodeId} {kind : NodeKind} {node : Node}
    (found : ast.enclosing? id kind = some node) : node.id ∈ ast.ancestors id := by
  obtain ⟨other, above, lookup⟩ := List.mem_filterMap.mp (List.mem_of_find?_eq_some found)
  rw [ast.keyed other node lookup]
  exact above

/-- The scopes around a record take in those of the contract that its function is defined in. -/
theorem Record.Declares.mem_scopesAround {record : Record} {global : Assignment}
    (declares : record.Declares global) :
    record.contract.node ∈ scopesAround record ∨
      global.var.scope ∈ scopesAround record := by
  obtain ⟨home, found, own | declared⟩ := declares
  · refine Or.inl (List.mem_flatMap.mpr ⟨home.id, Ast.mem_ancestors_of_enclosing? found, ?_⟩)
    rw [← own]
    exact List.mem_cons_self
  · exact Or.inr (List.mem_flatMap.mpr
      ⟨home.id, Ast.mem_ancestors_of_enclosing? found, declared⟩)

/-- A contract binds each of its state variables in its own scope and in that of the declaration. -/
theorem Contract.exists_globalAt? {contract : Contract} {global : Assignment}
    (listed : global ∈ contract.globals) {scope : NodeId}
    (here : contract.node = scope ∨ global.var.scope = scope) :
    ∃ other, contract.globalAt? scope global.var.id = some other := by
  refine Option.isSome_iff_exists.mp (List.find?_isSome.mpr ⟨global, by simpa using listed, ?_⟩)
  simpa using here

theorem binders_of_not_rebinds {record : Record} {earlier : List Record}
    (same : ¬ record.Rebinds earlier) : binders (record :: earlier) = binders earlier :=
  if_pos (not_not.mp same)

theorem Record.HasBound.binders {record : Record} {earlier : List Record}
    (bound : record.HasBound earlier) :
    ∃ others, binders (record :: earlier) = record.contract :: others := by
  by_cases rebinds : record.Rebinds earlier
  · exact ⟨SolTrace.binders earlier, if_neg rebinds⟩
  · rw [binders_of_not_rebinds rebinds]
    exact List.head?_eq_some_iff.mp (bound.resolve_left rebinds)

/-- If the executing contract was bound last, a variable that it declares in a scope around is
found, unless a scope around holds another one of its number. -/
theorem Record.firstBound?_of_hasBound {record : Record} {earlier : List Record}
    {global : Assignment} (own : record.HasBound earlier)
    (listed : global ∈ record.contract.globals) (declares : record.Declares global)
    (alone : ∀ scope ∈ scopesAround record, ∀ other,
      boundAt? (record :: earlier) scope global.var.id = some other → other = global) :
    record.firstBound? (record :: earlier) global.var.id = some global := by
  obtain ⟨scope, around, here⟩ : ∃ scope ∈ scopesAround record,
      record.contract.node = scope ∨ global.var.scope = scope := by
    rcases declares.mem_scopesAround with around | around
    · exact ⟨_, around, Or.inl rfl⟩
    · exact ⟨_, around, Or.inr rfl⟩
  obtain ⟨other, bound⟩ := Contract.exists_globalAt? listed here
  have known : boundAt? (record :: earlier) scope global.var.id = some other := by
    obtain ⟨others, binds⟩ := own.binders
    rw [boundAt?, binds, List.findSome?_cons, bound]
  have some : (record.firstBound? (record :: earlier) global.var.id).isSome = true :=
    List.findSome?_isSome_iff.mpr ⟨scope, around, by rw [known]; rfl⟩
  obtain ⟨found, first⟩ := Option.isSome_iff_exists.mp some
  obtain ⟨scope, inside, kept⟩ := List.exists_of_findSome?_eq_some first
  rw [first, alone scope inside found kept]

/-- After an entry on the account of the last one all that is found was bound before. -/
theorem Record.source_of_not_rebinds {record : Record} {earlier : List Record} {var : NodeId}
    {global : Assignment} (same : ¬ record.Rebinds earlier)
    (found : record.firstBound? (record :: earlier) var = some global) :
    ∃ entry ∈ earlier, global ∈ entry.contract.globals := by
  obtain ⟨scope, _, bound⟩ := List.exists_of_findSome?_eq_some found
  rw [boundAt?, binders_of_not_rebinds same] at bound
  obtain ⟨entry, inside, listed, _⟩ := boundAt?_source bound
  exact ⟨entry, inside, listed⟩

/-! ### Where an entry comes from -/

namespace Reduction

/-- Whether all steps that one state has and another one does not have are of a kind. -/
def Adds (kind : StepKind) (before after : Reduction) : Prop :=
  ∀ step ∈ after.steps, step ∈ before.steps ∨ step.kind = kind

section

variable {kind : StepKind} {before state : Reduction}

theorem Adds.of_steps (same : state.steps = before.steps) : Adds kind before state :=
  fun _ member => Or.inl (same ▸ member)

theorem Adds.emit (adds : Adds kind before state) (record : Record) :
    Adds kind before (state.emit record kind) := by
  intro step member
  rcases Array.mem_push.mp member with member | rfl
  · exact adds step member
  · exact Or.inr rfl

theorem Adds.leave (adds : Adds kind before state) : Adds kind before state.leaveFunction :=
  fun step member => adds step (by simpa using member)

variable {record : Record} {after : Reduction}

/-- One step of a record. -/
theorem replayStep_adds (stepped : replayStep record state kind = .ok after) :
    Adds kind state after := by
  have ready : Adds kind state ((state.mergeThrough record.index).dropUnwound record) :=
    .of_steps (ready_steps state record)
  rcases takeStep_cases stepped with ⟨_, rfl⟩ | ⟨rfl, _, rfl⟩ | ⟨rfl, _, inner, _, entered, rfl⟩ |
    ⟨rfl, _, rfl⟩ | ⟨rfl, _, left⟩
  · exact ready.emit record
  · exact ready
  · exact Adds.emit (.of_steps ((enterFunction_steps entered).trans (ready_steps state record)))
      record
  · exact leaveWhile_preserves (motive := Adds .functionOut state)
      (fun _ adds => (adds.emit record).leave) _ ready
  · obtain ⟨frame, frames, _, _, rfl⟩ := exitFunction_cases left
    exact (ready.emit record).leave

/-- No entry is shown outside of functions. -/
theorem replayStep_outside (outside : record.function? = none)
    (stepped : replayStep record state .functionIn = .ok after) : after.steps = state.steps := by
  unfold replayStep takeStep at stepped
  simp only [outside] at stepped
  cases stepped
  exact ready_steps state record

/-- Where an entry is shown, a function is entered. -/
theorem replay_entered {kinds : List StepKind} (replayed : state.replay (record, kinds) = .ok after)
    {step : Step} (old : step ∉ state.steps) (member : step ∈ after.steps)
    (enters : step.kind = .functionIn) :
    .functionIn ∈ kinds ∧ record.function?.isSome = true := by
  obtain ⟨begun, registered, stepped⟩ := bind_eq_ok.mp replayed
  rw [← registerLocal_steps registered] at old
  obtain ⟨front, kind, back, middle, next, split, _, turn, out, inside⟩ :=
    foldlM_turns (fun state => step ∈ state.steps) kinds stepped old member
  have same : kind = .functionIn :=
    ((replayStep_adds turn step inside).resolve_left out).symm.trans enters
  subst same
  refine ⟨split ▸ List.mem_append_right _ List.mem_cons_self, ?_⟩
  cases known : record.function? with
  | some function => rfl
  | none => exact absurd (replayStep_outside known turn ▸ inside) out

end

end Reduction

/-- Which state variables a function sees when it is entered. If numbers do not clash, those are
listed that the scopes around its definition show first of all that has been bound. If the
executing contract was bound last, as it is on another account than that of the last entry, these
are the contract's own as far as the function's contract declares them and no scope holds another
variable of their number. On the account of the last entry nothing is bound, and all that is listed
belongs to contracts that were entered before. -/
theorem entries_stateVariables (registry : Registry) (inputs : TraceInputs) (steps : List Step)
    (reduced : reduce registry inputs = .ok steps) :
    ∃ alignment, Alignment.ofInputs registry inputs = .ok alignment ∧
      (Apart alignment.records.toList → ∀ step ∈ steps, step.kind = .functionIn →
        ∃ front record kinds back,
          Classification.ofRecords alignment.records.toList = front ++ (record, kinds) :: back ∧
          .functionIn ∈ kinds ∧ record.function?.isSome = true ∧ step.index = record.index ∧
          let earlier := entriesOf front
          ∀ global ∈ record.contract.globals, global.var.state = true →
            global.var.isReturn = false →
            (global ∈ step.assignments ↔
              record.firstBound? (record :: earlier) global.var.id = some global) ∧
            (record.HasBound earlier → record.Declares global →
              (∀ scope ∈ scopesAround record, ∀ other,
                boundAt? (record :: earlier) scope global.var.id = some other → other = global) →
              global ∈ step.assignments) ∧
            (¬ record.Rebinds earlier → global ∈ step.assignments →
              ∃ entry ∈ earlier, global ∈ entry.contract.globals)) := by
  obtain ⟨alignment, aligned, rest⟩ := bind_eq_ok.mp reduced
  obtain ⟨state, replayed, made⟩ := bind_eq_ok.mp rest
  cases made
  refine ⟨alignment, aligned, ?_⟩
  intro apart step member enters
  have listed : ∀ entry ∈ [] ++ Classification.ofRecords alignment.records.toList,
      entry.1 ∈ alignment.records.toList := by
    intro entry inside
    rw [← Classification.ofRecords_records alignment.records.toList]
    exact List.mem_map_of_mem inside
  obtain ⟨front, record, kinds, back, middle, next, split, _, turn, old, new, explained⟩ :=
    foldlM_replay_turns listed (Classification.ofRecords_once _)
      (start_knows _ inputs alignment) replayed (by simp [Reduction.start])
      (Array.mem_toList_iff.mp member)
  obtain ⟨kind, inside⟩ := replay_entered turn old new enters
  have entries : entriesOf (front ++ [(record, kinds)]) = record :: entriesOf front := by
    rw [entriesOf_append, inside, List.contains_iff_mem.mpr kind]
    rfl
  rw [entries] at explained
  refine ⟨front, record, kinds, back, split, kind, inside, explained.index, ?_⟩
  intro earlier global own isState named
  have exact : global ∈ step.assignments ↔
      record.firstBound? (record :: earlier) global.var.id = some global := by
    rw [explained.exact apart global isState]
    constructor
    · rintro ⟨_, _, var, found⟩
      obtain ⟨scope, _, bound⟩ := List.exists_of_findSome?_eq_some found
      obtain ⟨_, _, _, rfl, _⟩ := boundAt?_source bound
      exact found
    · intro found
      exact ⟨by rw [enters]; decide, Or.inr named, global.var.id, found⟩
  refine ⟨exact, ?_, ?_⟩
  · intro bound declares alone
    exact exact.mpr (Record.firstBound?_of_hasBound bound own declares alone)
  · intro same shown
    exact Record.source_of_not_rebinds same (exact.mp shown)

/-- All that runs of a single known contract is its code. -/
theorem Registry.single_records {contract : Contract} {inputs : TraceInputs} {code : BytecodeId}
    {address : ContextAddress} {depth : Nat} {run : Run} {alignment : Alignment}
    (runs : inputs.Runs (.ofContracts [contract]) code address)
    (wellFormed : run.WellFormed (.ofContracts [contract]) inputs code depth)
    (trace : inputs.trace.logs = run.execution.logs)
    (aligned : Alignment.ofInputs (.ofContracts [contract]) inputs = .ok alignment) :
    ∀ record ∈ alignment.records.toList, record.contract = contract ∧
      contract.ast.get? record.node.id = some record.node := by
  obtain ⟨other, same, _, records⟩ := Execution.ofInputs_located runs (run_wellFormed wellFormed)
    (run_halts run) trace
  rw [aligned] at same
  cases same
  intro record member
  rw [records] at member
  obtain ⟨located, _, made⟩ := List.mem_filterMap.mp member
  obtain ⟨⟨owner, mapped, node⟩, found, rfl⟩ := Option.map_eq_some_iff.mp made
  obtain ⟨linked, known⟩ := byCode_of_instructionAt? found
  have owned : owner = contract := Registry.single_contract known
  subst owned
  exact ⟨rfl, (ast_of_instructionAt? found).1⟩

theorem exists_head?_binders (entries : List Record) (nonempty : entries ≠ []) :
    ∃ contract, (binders entries).head? = some contract := by
  induction entries with
  | nil => exact absurd rfl nonempty
  | cons record earlier ih =>
      unfold binders
      split
      · rename_i same
        refine ih ?_
        rintro rfl
        cases same
      · exact ⟨record.contract, rfl⟩

/-- If all entries are of one contract, each finds that contract bound. -/
theorem Record.hasBound_of_single {record : Record} {earlier : List Record}
    (single : ∀ entry ∈ earlier, entry.contract = record.contract) : record.HasBound earlier := by
  by_cases nonempty : earlier = []
  · subst nonempty
    exact Or.inl nofun
  · obtain ⟨contract, bound⟩ := exists_head?_binders earlier nonempty
    obtain ⟨entry, inside, rfl⟩ := mem_binders (List.mem_of_head? bound)
    exact Or.inr (single entry inside ▸ bound)

namespace Sample

/-- The function in the definition of its contract. -/
def housedAst : Ast :=
  { ast.put (node 10 "ContractDefinition" [1]) with
    parents := ((Std.ExtTreeMap.empty.insert 1 10).insert 2 1).insert 3 1 }

def housed : Contract :=
  { contract with
    ast := housedAst
    creation_within := by simp [LinkedCode.Within, contract, creation]
    runtime_within := by
      simp [LinkedCode.Within, contract, runtime, mapped, housedAst, ast, Ast.put, Ast.get?,
        Std.ExtTreeMap.getElem?_insert, node] }

def housedRegistry : Registry :=
  .ofContracts [housed]

theorem housed_byCode : housedRegistry.byCode runtime.id = .ok (housed, runtime) :=
  Registry.single_byCode housed (by decide +kernel) (by decide +kernel) rfl

theorem housed_identify : housedRegistry.identify runtime.text = .ok runtime.id :=
  Registry.single_identify housed (by decide +kernel) (by decide +kernel)

theorem housed_nodes {id : NodeId} {found : Node} (stored : housedAst.get? id = some found) :
    found.id ∈ ([1, 2, 3, 10] : List NodeId) ∧ found.kind ≠ .variableDeclaration ∧
      (found.kind = .functionDefinition → found.id = 1) := by
  have stored : (ast.put (node 10 "ContractDefinition" [1])).get? id = some found := stored
  simp only [ast, Ast.get?_put] at stored
  repeat' split at stored
  all_goals cases stored
  all_goals decide

theorem housed_home {id : NodeId} (inside : id ∈ ([1, 2, 3, 10] : List NodeId)) :
    housedAst.enclosing? id .contractDefinition =
      some (node 10 "ContractDefinition" [1]) := by
  simp only [List.mem_cons, List.not_mem_nil, or_false] at inside
  rcases inside with rfl | rfl | rfl | rfl <;> rfl

/-- The function calls its own code at another account, which runs on the storage of the first, and
both are reverted. -/
def delegating : Run where
  before := []
  entry := entry 1
  body := .message delegate [] (entry 2) .cut (log "REVERT" 1 2 []) .cut
  halt := log "REVERT" 1 1 []

/-- Where the instructions of the function stand. -/
structure Housed (known : Registry) (id : BytecodeId) : Prop where
  entry : instructionAt? known id 0 =
    some (housed, mapped 0 1 .regular, node 1 "FunctionDefinition" [2, 3])
  statement : instructionAt? known id 1 =
    some (housed, mapped 1 2 .regular, node 2 "Assignment" [])
  call : instructionAt? known id 4 =
    some (housed, mapped 4 3 .regular, node 3 "FunctionCall" [])

theorem housed_places : Housed housedRegistry runtime.id where
  entry := instructionAt?_of_mapped housed_byCode rfl (by rfl)
  statement := instructionAt?_of_mapped housed_byCode rfl (by rfl)
  call := instructionAt?_of_mapped housed_byCode rfl (by rfl)

theorem housed_entry {known : Registry} {id : BytecodeId} (places : Housed known id)
    (depth : Nat) : (entry depth).WellFormed known id depth where
  leading := by simp [entry]
  ordinary := ⟨rfl, rfl, rfl, rfl⟩
  last := by
    refine ⟨_, _, _, places.entry, rfl, rfl, ?_⟩
    intro declaration member
    have none : housed.ast.signature (entry depth).function = [] := rfl
    simp [none] at member
  kind := rfl

theorem housed_revert {known : Registry} {id : BytecodeId} (places : Housed known id)
    (depth : Nat) : Halting known id depth .cut (log "REVERT" 1 depth []) where
  depth := rfl
  op := Or.inr (Or.inr rfl)
  complete := Or.inr rfl
  mapped := ifMapped_of_mapped places.statement ⟨rfl, fun declares => nomatch declares⟩

theorem delegating_wellFormed {known : Registry} {stable : TraceInputs} {id : BytecodeId}
    (places : Housed known id) (enters : Execution.innerCode? known stable id delegate = some id) :
    delegating.WellFormed known stable id 1 where
  before := by simp [delegating]
  entry := housed_entry places 1
  leads := ⟨_, _, _, places.call, fun kind => nomatch kind⟩
  body := ⟨rfl, rfl, rfl, ⟨_, _, _, places.call, by decide, fun declares => nomatch declares⟩,
    ⟨id, enters, by simp, housed_entry places 2,
      ⟨_, _, _, places.statement, fun kind => nomatch kind⟩, trivial, housed_revert places 2⟩,
    trivial⟩
  halting := ⟨rfl, Or.inr (Or.inr rfl), Or.inr rfl, (housed_revert places 1).mapped⟩

theorem delegating_entries {known : Registry} {stable : TraceInputs} {id : BytecodeId}
    (enters : Execution.innerCode? known stable id delegate = some id) :
    (events 0 (delegating.expected known stable id (.deployed 0x10))).map
        (fun event => (event.1, event.2.1)) = [(0, .functionIn), (1, .jump), (2, .functionIn)] := by
  simp only [Run.expected, Body.expected, delegating, enters, Option.getD_some]
  rfl

theorem housed_apart (records : List Record)
    (own : ∀ record ∈ records, record.contract = housed ∧
      housedAst.get? record.node.id = some record.node) : Apart records := by
  have scopes : ∀ scope, IsGlobalScope records scope → scope = 10 := by
    rintro scope ⟨record, member, global⟩
    rw [(own record member).1] at global
    simpa [Contract.globalScopes, housed, contract, total] using global
  refine ⟨?_, ?_, ?_⟩
  · intro record member function known node inside global
    have found : housedAst.enclosing? record.node.id .functionDefinition = some function := by
      rw [Record.function?, (own record member).1] at known
      exact known
    have first : function.id = 1 :=
      (housed_nodes (housedAst.get?_of_enclosing? found)).2.2 (by
        simpa using List.find?_some found)
    rw [(own record member).1, first] at inside
    have walked : (housedAst.walk 1).map Node.id = [1, 2, 3] := rfl
    have listed : node.id ∈ ([1, 2, 3] : List NodeId) := by
      rcases List.mem_cons.mp inside with rfl | below
      · rw [first]
        decide
      · rw [← walked]
        exact List.mem_map_of_mem below
    rw [scopes _ global] at listed
    exact absurd listed (by decide)
  · intro record member function known declaration listed
    rw [(own record member).1] at listed
    obtain ⟨stored, kind⟩ := housed.ast.get?_of_mem_signature listed
    exact absurd kind (housed_nodes stored).2.1
  · intro record member kind
    exact absurd kind (housed_nodes (own record member).2).2.1

end Sample

/-- The function that is entered by a delegated call on the account of its own contract sees the
contract's state variable, as the function that makes the call does. -/
theorem entries_stateVariables_delegating :
    ∃ steps, reduce Sample.housedRegistry (Sample.inputs Sample.delegating.execution.logs) =
        .ok steps ∧
      (steps.filter fun step => step.kind ≠ .line).map (fun step => (step.index, step.kind)) =
        [(0, .functionIn), (1, .jump), (2, .functionIn)] ∧
      ∀ step ∈ steps, step.kind = .functionIn → Sample.total ∈ step.assignments := by
  let inputs := Sample.inputs Sample.delegating.execution.logs
  have runs : inputs.Runs Sample.housedRegistry Sample.runtime.id (.deployed 0x10) :=
    ⟨rfl, Sample.runtime.text, Sample.codeOf? _ 0x10 (Or.inl rfl), Sample.housed_identify⟩
  have called : Alignment.called? inputs Sample.delegate =
      some (Address.ofWord 0x20, Sample.runtime.text) := by
    have operand : Sample.delegate.peek? 1 = some 0x20 := rfl
    have code : Alignment.codeOf? inputs (Address.ofWord 0x20) = some Sample.runtime.text :=
      Sample.codeOf? _ _ (Or.inr rfl)
    simp only [Alignment.called?, operand, Option.bind_eq_bind, Option.bind_some, code]
    rfl
  have enters := (Alignment.innerCode?_of_called rfl called Sample.housed_identify
    Sample.runtime.id).1
  have wellFormed := Sample.delegating_wellFormed Sample.housed_places enters
  obtain ⟨steps, reduced, shown⟩ := run_reduces runs wellFormed rfl
  obtain ⟨alignment, aligned, entered⟩ :=
    entries_stateVariables Sample.housedRegistry inputs steps reduced
  have own := Registry.single_records runs wellFormed rfl aligned
  refine ⟨steps, reduced, ?_, ?_⟩
  · have same := Sample.delegating_entries enters
    rw [← shown.events, List.map_map] at same
    exact same
  · intro step member kind
    obtain ⟨front, record, kinds, back, split, _, _, _, listed⟩ :=
      entered (Sample.housed_apart _ own) step member kind
    have known : ∀ other ∈ record :: entriesOf front, other.contract = Sample.housed := by
      intro other inside
      refine (own other ?_).1
      rw [← Classification.ofRecords_records alignment.records.toList, split]
      rcases List.mem_cons.mp inside with rfl | inside
      · simp
      · simp [mem_of_entriesOf inside]
    have here := known record List.mem_cons_self
    refine (listed Sample.total (here ▸ List.mem_cons_self) rfl (by decide)).2.1 ?_ ?_ ?_
    · exact Record.hasBound_of_single fun entry inside =>
        (known entry (List.mem_cons_of_mem _ inside)).trans here.symm
    · have stored := (own record (by
        rw [← Classification.ofRecords_records alignment.records.toList, split]; simp)).2
      refine ⟨Sample.node 10 "ContractDefinition" [1], ?_, Or.inl ?_⟩
      · rw [Record.home?, here]
        exact Sample.housed_home (Sample.housed_nodes stored).1
      · rw [here]
        rfl
    · intro scope _ other bound
      obtain ⟨entry, inside, global, _⟩ := boundAt?_source bound
      rw [known entry inside] at global
      exact List.mem_singleton.mp global

end SolTrace
