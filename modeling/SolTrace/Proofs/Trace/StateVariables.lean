import SolTrace.Proofs.Trace.Tracking
/-!
State variables: where the steps of a trace show them. A contract's state variables are bound when
a function is entered on another account than the last one, and those bindings stay until others
replace them, whichever code runs on.
-/
set_option autoImplicit false

namespace SolTrace

/-! ### Traces -/

namespace Classification

theorem kindsFrom_records (records : List Record) :
    ∀ previous armed, (kindsFrom previous armed records).map Prod.fst = records := by
  induction records with
  | nil => exact fun _ _ => rfl
  | cons record records ih =>
      intro previous armed
      simp only [kindsFrom, List.map_cons, ih]

theorem enterFirst_records (entries : List (Record × List StepKind)) :
    (enterFirst entries).map Prod.fst = entries.map Prod.fst := by
  induction entries with
  | nil => rfl
  | cons entry entries ih =>
      obtain ⟨record, kinds⟩ := entry
      cases kinds with
      | nil => simp [enterFirst, ih]
      | cons kind kinds =>
          unfold enterFirst
          split <;> rfl

theorem ofRecords_records (records : List Record) : (ofRecords records).map Prod.fst = records := by
  rw [ofRecords, enterFirst_records, kindsFrom_records]

theorem kindsFrom_length (records : List Record) :
    ∀ previous armed, ∀ entry ∈ kindsFrom previous armed records, entry.2.length ≤ 1 := by
  induction records with
  | nil => intro _ _ entry member; cases member
  | cons record records ih =>
      intro previous armed entry member
      rcases List.mem_cons.mp member with rfl | member
      · cases kindOf previous records.head? armed record <;> simp
      · exact ih _ _ entry member

/-- An entry comes before the other steps of its record. -/
theorem enterFirst_once (entries : List (Record × List StepKind))
    (single : ∀ entry ∈ entries, entry.2.length ≤ 1) :
    ∀ entry ∈ enterFirst entries, ∀ kind ∈ entry.2.tail, kind ≠ .functionIn := by
  have without : ∀ entry ∈ entries, entry.2.tail = [] := by
    intro entry member
    exact List.eq_nil_of_length_eq_zero (by have := single entry member; simp; omega)
  induction entries with
  | nil => intro entry member; cases member
  | cons first entries ih =>
      have rest : ∀ entry ∈ entries, ∀ kind ∈ entry.2.tail, kind ≠ .functionIn := by
        intro entry member kind inside
        rw [without entry (List.mem_cons_of_mem _ member)] at inside
        cases inside
      have here := without first List.mem_cons_self
      obtain ⟨record, kinds⟩ := first
      intro entry member kind inside
      cases kinds with
      | nil =>
          rcases List.mem_cons.mp member with rfl | member
          · cases inside
          · exact ih (fun entry member => single entry (List.mem_cons_of_mem _ member))
              (fun entry member => without entry (List.mem_cons_of_mem _ member)) entry member kind
              inside
      | cons first kinds =>
          have here : kinds = [] := here
          subst here
          unfold enterFirst at member
          split at member <;> rcases List.mem_cons.mp member with rfl | member
          · rename_i added
            rw [List.mem_singleton.mp inside]
            exact added.1
          · exact rest entry member kind inside
          · cases inside
          · exact rest entry member kind inside

theorem ofRecords_once (records : List Record) :
    ∀ entry ∈ ofRecords records, ∀ kind ∈ entry.2.tail, kind ≠ .functionIn :=
  enterFirst_once _ (kindsFrom_length records none true)

end Classification

open Reduction

/-- What holds after a run and did not hold before it came to hold at one of the entries. -/
theorem foldlM_turns {σ α : Type} {run : σ → α → Except Error σ} (holds : σ → Prop)
    (entries : List α) :
    ∀ {state after : σ}, entries.foldlM run state = .ok after → ¬ holds state → holds after →
      ∃ front entry back middle next, entries = front ++ entry :: back ∧
        front.foldlM run state = .ok middle ∧ run middle entry = .ok next ∧
        ¬ holds middle ∧ holds next := by
  induction entries with
  | nil =>
      intro state after ran before now
      cases ran
      exact absurd now before
  | cons entry entries ih =>
      intro state after ran before now
      obtain ⟨next, first, rest⟩ := bind_eq_ok.mp ran
      by_cases here : holds next
      · exact ⟨[], entry, entries, state, next, rfl, rfl, first, before, here⟩
      · obtain ⟨front, later, back, middle, last, split, begun, turn, out, inside⟩ :=
          ih rest here now
        refine ⟨entry :: front, later, back, middle, last, by rw [split, List.cons_append], ?_,
          turn, out, inside⟩
        rw [List.foldlM_cons]
        exact bind_eq_ok.mpr ⟨next, first, begun⟩

theorem entriesOf_subset {records : List Record} {classified : List (Record × List StepKind)}
    (listed : ∀ entry ∈ classified, entry.1 ∈ records) :
    ∀ entry ∈ entriesOf classified, entry ∈ records := by
  intro entry inside
  obtain ⟨pair, kept, rfl⟩ := List.mem_map.mp (mem_of_entriesOf inside)
  exact listed pair kept

/-- Through all records the bindings are those of the entries. -/
theorem foldlM_knows {records : List Record} (rest : List (Record × List StepKind)) :
    ∀ {front : List (Record × List StepKind)} {state after : Reduction},
      (∀ entry ∈ front ++ rest, entry.1 ∈ records) →
      (∀ entry ∈ rest, ∀ kind ∈ entry.2.tail, kind ≠ .functionIn) →
      Knows records (entriesOf front) state → rest.foldlM Reduction.replay state = .ok after →
      Knows records (entriesOf (front ++ rest)) after := by
  induction rest with
  | nil =>
      intro front state after _ _ knows replayed
      cases replayed
      simpa using knows
  | cons entry rest ih =>
      obtain ⟨record, kinds⟩ := entry
      intro front state after listed once knows replayed
      obtain ⟨middle, first, later⟩ := bind_eq_ok.mp replayed
      have explains := knows.replay (listed (record, kinds) (by simp))
        (entriesOf_subset fun entry inside => listed entry (List.mem_append_left _ inside))
        (once (record, kinds) List.mem_cons_self) first
      have split : front ++ (record, kinds) :: rest = (front ++ [(record, kinds)]) ++ rest := by
        simp
      rw [split] at listed ⊢
      exact ih listed (fun entry inside => once entry (List.mem_cons_of_mem _ inside))
        explains.knows later

/-- Every new step is taken at one record, from a state that knows the entries before. -/
theorem foldlM_replay_turns {records : List Record} {rest front : List (Record × List StepKind)}
    {state after : Reduction} (listed : ∀ entry ∈ front ++ rest, entry.1 ∈ records)
    (once : ∀ entry ∈ rest, ∀ kind ∈ entry.2.tail, kind ≠ .functionIn)
    (knows : Knows records (entriesOf front) state)
    (replayed : rest.foldlM Reduction.replay state = .ok after) {step : Step}
    (old : step ∉ state.steps) (member : step ∈ after.steps) :
    ∃ before record kinds back middle next, front ++ rest = before ++ (record, kinds) :: back ∧
      Knows records (entriesOf before) middle ∧ middle.replay (record, kinds) = .ok next ∧
      step ∉ middle.steps ∧ step ∈ next.steps ∧
      Explained records (entriesOf (before ++ [(record, kinds)])) record step := by
  obtain ⟨between, ⟨record, kinds⟩, back, middle, next, rfl, begun, turn, out, inside⟩ :=
    foldlM_turns (fun state => step ∈ state.steps) rest replayed old member
  have earlier : ∀ entry ∈ front ++ between, entry.1 ∈ records :=
    fun entry inside => listed entry (by
      rw [← List.append_assoc]
      exact List.mem_append_left _ inside)
  have known := foldlM_knows between earlier
    (fun entry inside => once entry (List.mem_append_left _ inside)) knows begun
  have explains := known.replay (listed (record, kinds) (by simp)) (entriesOf_subset earlier)
    (once (record, kinds) (by simp)) turn
  exact ⟨front ++ between, record, kinds, back, middle, next, (List.append_assoc ..).symm, known,
    turn, out, inside, (explains.steps step inside).resolve_left out⟩

/-- Every step stands at a record, and lists what is known from the records up to there. -/
theorem foldlM_explained {records : List Record} (rest : List (Record × List StepKind)) :
    ∀ {front : List (Record × List StepKind)} {state after : Reduction},
      (∀ entry ∈ front ++ rest, entry.1 ∈ records) →
      (∀ entry ∈ rest, ∀ kind ∈ entry.2.tail, kind ≠ .functionIn) →
      Knows records (entriesOf front) state → rest.foldlM Reduction.replay state = .ok after →
      ∀ step ∈ after.steps, step ∈ state.steps ∨ ∃ before record kinds back,
        front ++ rest = before ++ (record, kinds) :: back ∧
          Explained records (entriesOf (before ++ [(record, kinds)])) record step := by
  intro front state after listed once knows replayed step member
  by_cases old : step ∈ state.steps
  · exact Or.inl old
  · obtain ⟨before, record, kinds, back, _, _, split, _, _, _, _, explained⟩ :=
      foldlM_replay_turns listed once knows replayed old member
    exact Or.inr ⟨before, record, kinds, back, split, explained⟩

/-- The state in which a replay starts knows that nothing is bound. -/
theorem start_knows (records : List Record) (inputs : TraceInputs) (alignment : Alignment) :
    Knows records (entriesOf []) (Reduction.start inputs alignment) := by
  have nothing (property) : Everywhere property (Reduction.start inputs alignment) :=
    ⟨by simp [Reduction.start], by simp [Reduction.start]⟩
  exact ⟨nothing _, fun _ => ⟨rfl, by simp [Reduction.start, entriesOf, boundAt?, binders],
    by simp [Reduction.start], nothing _⟩⟩

/-- Where the steps of a trace show state variables. Each is one of a contract that a function was
entered in before. If numbers do not clash, all that a step shows of them is what was bound last;
so they are where the executing contract keeps them just if that contract keeps there all that was
bound last. -/
theorem stateVariables_shown (registry : Registry) (inputs : TraceInputs) (steps : List Step)
    (reduced : reduce registry inputs = .ok steps) :
    ∃ alignment, Alignment.ofInputs registry inputs = .ok alignment ∧
      ∀ step ∈ steps, ∃ front record kinds back,
        Classification.ofRecords alignment.records.toList = front ++ (record, kinds) :: back ∧
        step.index = record.index ∧
        let entries := entriesOf (front ++ [(record, kinds)])
        (∀ assignment ∈ step.assignments,
          (∃ entry ∈ entries, assignment ∈ entry.contract.globals) ∨ IsLocal assignment) ∧
        (Apart alignment.records.toList →
          ((∀ assignment ∈ step.assignments, assignment.var.state = true →
              assignment ∈ record.contract.globals) ↔
            ∀ assignment : Assignment, assignment.var.state = true →
              Shown entries record step.kind assignment →
                assignment ∈ record.contract.globals)) := by
  obtain ⟨alignment, aligned, rest⟩ := bind_eq_ok.mp reduced
  obtain ⟨state, replayed, made⟩ := bind_eq_ok.mp rest
  cases made
  let classified := Classification.ofRecords alignment.records.toList
  have listed : ∀ entry ∈ [] ++ classified, entry.1 ∈ alignment.records.toList := by
    intro entry member
    rw [← Classification.ofRecords_records alignment.records.toList]
    exact List.mem_map_of_mem member
  have nothing (property) : Everywhere property (Reduction.start inputs alignment) :=
    ⟨by simp [Reduction.start], by simp [Reduction.start]⟩
  have knows : Knows alignment.records.toList (entriesOf []) (Reduction.start inputs alignment) :=
    ⟨nothing _, fun _ => ⟨rfl, by simp [Reduction.start, entriesOf, boundAt?, binders],
      by simp [Reduction.start], nothing _⟩⟩
  refine ⟨alignment, aligned, ?_⟩
  intro step member
  rcases foldlM_explained classified listed (Classification.ofRecords_once _) knows replayed step
    (Array.mem_toList_iff.mp member) with none | ⟨front, record, kinds, back, split, explained⟩
  · simp [Reduction.start] at none
  · refine ⟨front, record, kinds, back, split, explained.index, explained.sources, ?_⟩
    intro apart
    constructor
    · intro kept assignment isState shown
      exact kept assignment ((explained.exact apart assignment isState).mpr shown) isState
    · intro kept assignment inside isState
      exact kept assignment isState ((explained.exact apart assignment isState).mp inside)

theorem byCode_of_instructionAt? {registry : Registry} {code : BytecodeId} {pc : Nat}
    {contract : Contract} {mapped : MappedInstruction} {node : Node}
    (found : instructionAt? registry code pc = some (contract, mapped, node)) :
    ∃ linked, registry.byCode code = .ok (contract, linked) := by
  simp only [instructionAt?, Option.bind_eq_bind, Option.bind_eq_some_iff] at found
  obtain ⟨⟨owner, linked⟩, known, entry, _, stored, _, equal⟩ := found
  cases equal
  cases result : registry.byCode code with
  | error error => simp [result, Except.toOption] at known
  | ok pair =>
      rw [result, Except.toOption, Option.some.injEq] at known
      exact ⟨linked, congrArg Except.ok known⟩

theorem Registry.single_contract {contract known : Contract} {code : BytecodeId}
    {linked : LinkedCode}
    (found : (Registry.ofContracts [contract]).byCode code = .ok (known, linked)) :
    known = contract := by
  obtain ⟨_, _, _, named, _⟩ := (byCode_ofContracts _ _ _ _).mp found
  exact List.mem_singleton.mp (List.mem_reverse.mp (List.mem_of_find?_eq_some named))

namespace Sample

theorem nodes {id : NodeId} {found : Node} (stored : ast.get? id = some found) :
    found.id ≠ 10 ∧ found.id ≠ 11 ∧ found.kind ≠ .variableDeclaration := by
  simp only [ast, Ast.get?_put] at stored
  split at stored
  · cases stored
    decide
  · split at stored
    · cases stored
      decide
    · split at stored
      · cases stored
        decide
      · cases stored

theorem apart (records : List Record)
    (own : ∀ record ∈ records, record.contract = contract ∧
      ast.get? record.node.id = some record.node) : Apart records := by
  have scopes : ∀ scope, IsGlobalScope records scope → scope = 10 := by
    rintro scope ⟨record, member, global⟩
    rw [(own record member).1] at global
    simpa [Contract.globalScopes, contract, total] using global
  have vars : ∀ var, IsGlobal records var → var = 11 := by
    rintro var ⟨record, member, global, listed, rfl⟩
    rw [(own record member).1] at listed
    rw [List.mem_singleton.mp listed]
    rfl
  refine ⟨?_, ?_, ?_⟩
  · intro record member function known node inside global
    have stored : ast.get? node.id = some node := by
      rcases List.mem_cons.mp inside with rfl | walked
      · have found := record.contract.ast.get?_of_enclosing? known
        rwa [(own record member).1] at found
      · have found := record.contract.ast.get?_of_mem_walk _ _ walked
        rwa [(own record member).1] at found
    exact (nodes stored).1 (scopes _ global)
  · intro record member function known declaration listed
    rw [(own record member).1] at listed
    obtain ⟨stored, kind⟩ := contract.ast.get?_of_mem_signature listed
    exact absurd kind (nodes stored).2.2
  · intro record member kind
    exact absurd kind (nodes (own record member).2).2.2

end Sample

/-- All code is of one contract, so its state variables are where it keeps them. -/
theorem stateVariables_shown_activations :
    ∃ steps, reduce Sample.registry (Sample.inputs Sample.activations.execution.logs) = .ok steps ∧
      steps ≠ [] ∧ ∀ step ∈ steps, ∀ assignment ∈ step.assignments,
        assignment.var.state = true → assignment ∈ Sample.contract.globals := by
  let inputs := Sample.inputs Sample.activations.execution.logs
  have runs := Sample.runs Sample.activations.execution.logs
  have wellFormed := Sample.activations_wellFormed Sample.places
    (Sample.callsEnter Sample.activations.execution.logs)
  obtain ⟨steps, reduced, shown⟩ := run_reduces runs wellFormed rfl
  obtain ⟨alignment, aligned, explained⟩ :=
    stateVariables_shown Sample.registry inputs steps reduced
  obtain ⟨other, same, _, records⟩ := Execution.ofInputs_located runs
    (run_wellFormed wellFormed) (run_halts Sample.activations) rfl
  rw [aligned] at same
  cases same
  have own : ∀ record ∈ alignment.records.toList, record.contract = Sample.contract ∧
      Sample.ast.get? record.node.id = some record.node := by
    intro record member
    rw [records] at member
    obtain ⟨located, _, made⟩ := List.mem_filterMap.mp member
    obtain ⟨⟨owner, mapped, node⟩, found, rfl⟩ := Option.map_eq_some_iff.mp made
    obtain ⟨linked, known⟩ := byCode_of_instructionAt? found
    have owned : owner = Sample.contract := Registry.single_contract known
    subst owned
    exact ⟨rfl, (ast_of_instructionAt? found).1⟩
  refine ⟨steps, reduced, ?_, ?_⟩
  · rintro rfl
    have same := congrArg List.length (Sample.activations_events
      (Sample.callsEnter Sample.activations.execution.logs))
    rw [← shown.events] at same
    cases same
  · intro step member assignment listed isState
    obtain ⟨front, record, kinds, back, split, _, _, correct⟩ := explained step member
    have known : ∀ other ∈ (front ++ [(record, kinds)]).map Prod.fst,
        other.contract = Sample.contract := by
      intro other inside
      refine (own other ?_).1
      rw [← Classification.ofRecords_records alignment.records.toList, split]
      simp only [List.map_append, List.map_cons, List.mem_append, List.mem_cons] at inside ⊢
      tauto
    have here := known record (by simp)
    rw [← here]
    refine (correct (Sample.apart _ own)).mpr ?_ assignment listed isState
    rintro global _ ⟨_, _, var, found⟩
    obtain ⟨scope, _, bound⟩ := List.exists_of_findSome?_eq_some found
    obtain ⟨entry, inside, kept, _⟩ := boundAt?_source bound
    rw [known entry (mem_of_entriesOf inside)] at kept
    rw [here]
    exact kept

end SolTrace
