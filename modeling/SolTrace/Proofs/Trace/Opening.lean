import SolTrace.Proofs.Trace.Progress
/-!
Openings: the logs before the body of a function, in which nothing happens until the function is
entered by the last of them.
-/
set_option autoImplicit false

namespace SolTrace

open Activation Reduction

/-- The records of logs whose instructions are mapped. -/
def recordsOf (registry : Registry) (located : List Located) : List Record :=
  located.filterMap (Located.record? registry)

@[simp] theorem recordsOf_cons (registry : Registry) (first : Located) (rest : List Located) :
    recordsOf registry (first :: rest) =
      (first.record? registry).toList ++ recordsOf registry rest := by
  cases record : first.record? registry <;> simp [recordsOf, record]

@[simp] theorem recordsOf_append (registry : Registry) (front back : List Located) :
    recordsOf registry (front ++ back) =
      recordsOf registry front ++ recordsOf registry back :=
  List.filterMap_append

/-! ### Before a function -/

/-- Logs that a node executes one after the other. -/
def placed (visit : Visit) (outer : List Visit) : Nat → List StructLog → List Located
  | _, [] => []
  | index, log :: logs => ⟨index, log, visit, outer⟩ :: placed visit outer (index + 1) logs

theorem chain_executed (registry : Registry) (inputs : TraceInputs) (visit : Visit)
    (outer : List Visit) (entered : Nat) (rest : Execution) (logs : List StructLog) :
    ∀ index, (chain logs rest).executed registry inputs visit outer index entered =
      placed visit outer index logs ++
        rest.executed registry inputs visit outer (index + logs.length) entered := by
  induction logs with
  | nil => intro index; rfl
  | cons log logs ih =>
      intro index
      have tail := ih (index + 1)
      simp only [chain, List.foldr_cons, Execution.executed] at tail ⊢
      simp [placed, tail, Nat.add_assoc, Nat.add_comm 1]

theorem mem_recordsOf_placed {registry : Registry} {visit : Visit} {outer : List Visit}
    {logs : List StructLog} {record : Record} :
    ∀ {index : Nat}, record ∈ recordsOf registry (placed visit outer index logs) →
      record.log ∈ logs ∧ instructionAt? registry visit.context.code record.log.pc =
        some (record.contract, record.mapped, record.node) := by
  induction logs with
  | nil => intro index member; simp [placed, recordsOf] at member
  | cons log logs ih =>
      intro index member
      simp only [placed, recordsOf_cons, List.mem_append] at member
      rcases member with member | member
      · obtain ⟨place, found, rfl⟩ := Option.map_eq_some_iff.mp (Option.mem_toList.mp member)
        exact ⟨List.mem_cons_self, found⟩
      · obtain ⟨inside, found⟩ := ih member
        exact ⟨List.mem_cons_of_mem _ inside, found⟩

/-- A record that opens nothing. It is outside of functions, or a function may still be entered. -/
structure Quiet (kind : NodeKind) (record : Record) : Prop where
  op : record.log.op ≠ "RETURN"
  isCall : record.log.isCall = false
  isCreate : record.log.isCreate = false
  node : record.node.kind = kind
  jump : kind = .contractDefinition ∨
    kind = .functionDefinition ∧ record.mapped.location.jump = .regular

theorem Quiet.kindOf {kind : NodeKind} {record : Record} (quiet : Quiet kind record)
    (previous next : Option Record)
    (following : kind = .contractDefinition ∨
      ∃ later, next = some later ∧ later.node.kind = .functionDefinition) :
    Classification.kindOf previous next true record = none := by
  obtain ⟨op, isCall, _, node, jump⟩ := quiet
  have inside : record.isExit = false := by
    rcases jump with rfl | ⟨_, regular⟩
    · simp [Record.isExit, op, node]
    · exact Record.isExit_of_inside op (by simp [regular])
  have entry : record.isEntry next = false := by
    rcases jump with rfl | ⟨rfl, _⟩
    · simp [Record.isEntry, node]
    · rcases following with other | ⟨later, rfl, kind⟩
      · contradiction
      · simp [Record.isEntry, kind]
  have site : record.isCallSite = false := by
    rcases jump with rfl | ⟨rfl, _⟩ <;> simp [Record.isCallSite, node, isCall]
  have statement : record.isStatement previous = false := by
    rcases jump with rfl | ⟨rfl, _⟩ <;> simp [Record.isStatement, node]
  simp [Classification.kindOf, inside, entry, site, statement]

/-- Quiet records become no steps, and whatever is about to be entered still is. -/
theorem kindsFrom_quiet {kind : NodeKind} (records : List Record)
    (following : kind = .contractDefinition ∨
      ∃ later, records.head? = some later ∧ later.node.kind = .functionDefinition)
    (front : List Record) (quiet : ∀ record ∈ front, Quiet kind record) :
    ∀ previous, ∃ previous', Classification.kindsFrom previous true (front ++ records) =
      front.map (fun record => (record, [])) ++
        Classification.kindsFrom previous' true records := by
  induction front with
  | nil => exact fun previous => ⟨previous, rfl⟩
  | cons record front ih =>
      intro previous
      have first := quiet record List.mem_cons_self
      have next : kind = .contractDefinition ∨
          ∃ later, (front ++ records).head? = some later ∧
            later.node.kind = .functionDefinition := by
        rcases first.jump with outside | ⟨function, _⟩
        · exact Or.inl outside
        · cases front with
          | nil => exact following
          | cons later front =>
              have same := (quiet later (by simp)).node
              exact Or.inr ⟨later, rfl, same.trans function⟩
      obtain ⟨previous', rest⟩ := ih
        (fun later member => quiet later (List.mem_cons_of_mem _ member)) (some record)
      refine ⟨previous', ?_⟩
      have silent := first.kindOf previous (front ++ records).head? next
      have armed : Classification.armedAfter true record none = true := by
        simp [Classification.armedAfter]
      simp only [List.cons_append, Classification.kindsFrom, silent, armed, rest, List.map_cons,
        Option.toList_none]

/-- Records on no declaration of a variable that become no steps change nothing. -/
theorem foldlM_quiet (state : Reduction) (front : List Record)
    (other : ∀ record ∈ front, record.node.kind ≠ .variableDeclaration) :
    (front.map fun record => (record, [])).foldlM Reduction.replay state = .ok state := by
  induction front with
  | nil => rfl
  | cons record front ih =>
      have registered := state.registerLocal_self record (other record List.mem_cons_self)
      have rest := ih fun later member => other later (List.mem_cons_of_mem _ member)
      simpa [replay, registered, pure, Except.pure] using rest

theorem enterFirst_quiet (front : List Record) (record : Record)
    (rest : List (Record × List StepKind)) :
    Classification.enterFirst
        (front.map (fun record => (record, [])) ++ (record, [.functionIn]) :: rest) =
      front.map (fun record => (record, [])) ++ (record, [.functionIn]) :: rest := by
  induction front with
  | nil => simp [Classification.enterFirst]
  | cons first front ih => simp [Classification.enterFirst, ih]

section

variable {registry : Registry} {inputs : TraceInputs} {visit : Visit} {outer : List Visit}
  {entered : Nat}

/-- The records before a function is reached. -/
theorem before_quiet {depth : Nat} {before : List StructLog}
    (outside : ∀ log ∈ before, Precedes registry visit.context.code depth log) {index : Nat} :
    ∀ record ∈ recordsOf registry (placed visit outer index before),
      Quiet .contractDefinition record := by
  intro record member
  obtain ⟨known, place⟩ := mem_recordsOf_placed member
  obtain ⟨ordinary, kind⟩ := outside record.log known
  have returns := Record.not_return_of_isHalt ordinary.isHalt
  exact ⟨returns, ordinary.isCall, ordinary.isCreate, kind _ _ _ place, Or.inl rfl⟩

/-- The records of a function's definition before the one that is followed by its body. -/
theorem leading_quiet {depth : Nat} {entry : Entry}
    (wellFormed : entry.WellFormed registry visit.context.code depth) {index : Nat} :
    ∀ record ∈ recordsOf registry (placed visit outer index entry.leading),
      Quiet .functionDefinition record := by
  intro record member
  obtain ⟨known, place⟩ := mem_recordsOf_placed member
  obtain ⟨ordinary, kind⟩ := wellFormed.leading record.log known
  obtain ⟨regular, node⟩ := kind _ _ _ place
  have returns := Record.not_return_of_isHalt ordinary.isHalt
  have definition : record.node.kind = .functionDefinition := by
    rw [node]
    exact wellFormed.kind
  exact ⟨returns, ordinary.isCall, ordinary.isCreate, definition, Or.inr ⟨rfl, regular⟩⟩

/-- The record of a function's definition that is followed by another node enters the function. -/
theorem kindOf_entry {record next : Record} {later : List Record}
    (continues : record.log.isHalt = false) (isCall : record.log.isCall = false)
    (regular : record.mapped.location.jump = .regular)
    (kind : record.node.kind = .functionDefinition) (following : later.head? = some next)
    (inside : next.node.kind ≠ .functionDefinition) (previous : Option Record) :
    Classification.kindOf previous later.head? true record = some .functionIn := by
  have op : record.log.op ≠ "RETURN" := Record.not_return_of_isHalt continues
  have inward : record.isExit = false := Record.isExit_of_inside op (by simp [regular])
  have site : record.isCallSite = false := by simp [Record.isCallSite, regular, isCall]
  have isEntry : record.isEntry later.head? = true := by
    simp [Record.isEntry, kind, following, inside]
  simp [Classification.kindOf, inward, site, isEntry]

/-- The records up to the entry of a function: only the last one becomes a step. -/
theorem opening_kinds {depth : Nat} {before : List StructLog} {entry : Entry}
    (outside : ∀ log ∈ before, Precedes registry visit.context.code depth log)
    (wellFormed : entry.WellFormed registry visit.context.code depth) {rest : Execution}
    {index : Nat} {records : List Record} {next : Record}
    (following : (recordsOf registry (rest.executed registry inputs visit outer
      (index + before.length + entry.leading.length + 1) entered) ++ records).head? = some next)
    (inside : next.node.kind ≠ .functionDefinition) :
    ∃ (front : List Record) (record : Record),
      (∀ record ∈ front, record.node.kind ≠ .variableDeclaration) ∧
      (∃ contract mapped, instructionAt? registry visit.context.code entry.last.pc =
          some (contract, mapped, entry.function) ∧
        record = Located.recordOn
          ⟨index + before.length + entry.leading.length, entry.last, visit, outer⟩ contract mapped
          entry.function ∧
        ∀ declaration ∈ contract.ast.signature entry.function,
          ∃ var, contract.resolver.declared declaration = .ok var) ∧
      ∀ previous, Classification.kindsFrom previous true
          (recordsOf registry ((chain before (entry.execution rest)).executed registry inputs visit
            outer index entered) ++ records) =
        front.map (fun record => (record, [])) ++ (record, [.functionIn]) ::
          Classification.kindsFrom (some record) false
            (recordsOf registry (rest.executed registry inputs visit outer
              (index + before.length + entry.leading.length + 1) entered) ++ records) := by
  obtain ⟨contract, mapped, _, found, jump, rfl, resolvable⟩ := wellFormed.last
  let record := Located.recordOn
    ⟨index + before.length + entry.leading.length, entry.last, visit, outer⟩ contract mapped
    entry.function
  let early := recordsOf registry (placed visit outer index before)
  let leading := recordsOf registry (placed visit outer (index + before.length) entry.leading)
  let later := recordsOf registry (rest.executed registry inputs visit outer
    (index + before.length + entry.leading.length + 1) entered) ++ records
  have listed : recordsOf registry ((chain before (entry.execution rest)).executed registry inputs
      visit outer index entered) ++ records = early ++ (leading ++ record :: later) := by
    have only : (Located.record? registry
        ⟨index + before.length + entry.leading.length, entry.last, visit, outer⟩).toList =
          [record] := by
      simp [Located.record?, found, record]
    rw [chain_executed, Entry.execution, chain_executed]
    simp [Execution.executed, only, early, leading, later]
  have earlyQuiet : ∀ record ∈ early, Quiet .contractDefinition record := before_quiet outside
  have leadingQuiet : ∀ record ∈ leading, Quiet .functionDefinition record :=
    leading_quiet wellFormed
  have entering (previous : Option Record) :
      Classification.kindOf previous later.head? true record = some .functionIn :=
    kindOf_entry wellFormed.ordinary.isHalt wellFormed.ordinary.isCall jump wellFormed.kind
      following inside previous
  refine ⟨early ++ leading, record, ?_, ⟨contract, mapped, found, rfl, resolvable⟩, ?_⟩
  · intro record member declares
    rcases List.mem_append.mp member with member | member
    · rw [(earlyQuiet record member).node] at declares
      contradiction
    · rw [(leadingQuiet record member).node] at declares
      contradiction
  · intro previous
    obtain ⟨middle, first⟩ := kindsFrom_quiet (leading ++ record :: later) (Or.inl rfl) early
      earlyQuiet previous
    obtain ⟨last, second⟩ := kindsFrom_quiet (record :: later)
      (Or.inr ⟨record, rfl, wellFormed.kind⟩) leading leadingQuiet middle
    have isCreate : record.log.isCreate = false := wellFormed.ordinary.isCreate
    have armed : Classification.armedAfter true record (some .functionIn) = false := by
      rw [Classification.armedAfter, isCreate]
      rfl
    rw [listed, first, second, Classification.kindsFrom, entering, armed]
    simp [later]

/-- An active function of a node, whose entry has been replayed. -/
structure Running (registry : Registry) (visit : Visit) (outer : List Visit) (entered : Nat)
    (function : Node) (frame : Frame) (frames : List Frame) (progress : Progress) : Prop where
  disarmed : progress.armed = false
  standing : Standing progress.state (ids visit outer) entered (frame :: frames)
  context : frame.context = visit.context.id
  call : frame.call = frameOf registry visit.context.code visit.context.address function

theorem opening_reaches (visit : Visit) (outer : List Visit) {depth : Nat}
    (before : List StructLog) {entry : Entry}
    (outside : ∀ log ∈ before, Precedes registry visit.context.code depth log)
    (wellFormed : entry.WellFormed registry visit.context.code depth) {rest : Execution}
    (index : Nat) {start : Nat} (starts : start = index + before.length + entry.leading.length + 1)
    {records : List Record} {next : Record}
    (following : (recordsOf registry (rest.executed registry inputs visit outer start entered) ++
      records).head? = some next)
    (inside : next.node.kind ≠ .functionDefinition) {progress : Progress} {frames : List Frame}
    (armed : progress.armed = true)
    (standing : Standing progress.state (ids visit outer) entered frames)
    (calls : List CallFrame) :
    ∃ (after : Progress) (frame : Frame),
      progress.Reaches
        (recordsOf registry ((chain before (entry.execution rest)).executed registry inputs visit
          outer index entered) ++ records)
        index
        (before.map (fun _ => ⟨calls, none⟩) ++ entry.expected (callsOf frames ++
          [frameOf registry visit.context.code visit.context.address entry.function]))
        after
        (recordsOf registry (rest.executed registry inputs visit outer start entered) ++
          records) ∧
      Running registry visit outer entered entry.function frame frames after := by
  subst starts
  obtain ⟨front, _, other, ⟨contract, mapped, found, rfl, resolvable⟩, kinds⟩ :=
    opening_kinds outside wellFormed following inside
  let record := Located.recordOn
    ⟨index + before.length + entry.leading.length, entry.last, visit, outer⟩ contract mapped
    entry.function
  obtain ⟨stored, named⟩ := ast_of_instructionAt? found
  have known : record.function? = some entry.function := by
    have own := contract.ast.enclosing?_self stored
    rwa [wellFormed.kind] at own
  have executing : record.context ∈ ids visit outer := List.mem_cons_self
  obtain ⟨state, frame, replayed, call, context, stands, step, pushed, indexed, kind, shown⟩ :=
    replay_functionIn standing (recordOn_active _ _ visit outer contract mapped entry.function)
      executing rfl wellFormed.kind known resolvable
  have call : frame.call =
      frameOf registry visit.context.code visit.context.address entry.function := by
    rw [named]
    exact call
  refine ⟨⟨some record, false, state⟩, frame, ⟨?_, [step], by simp [pushed], ?_⟩,
    rfl, stands, context, call⟩
  · rw [Progress.run, armed, kinds, List.foldlM_append, foldlM_quiet _ front other, ok_bind,
      List.foldlM_cons, replayed, ok_bind]
    rfl
  · have silent : Shows index
        (before.map (fun _ => (⟨calls, none⟩ : Expected)) ++ entry.leading.map fun _ =>
          ⟨callsOf frames ++ [frame.call], none⟩) [] := by
      refine Shows.none index ?_
      intro expected member
      rcases List.mem_append.mp member with member | member <;>
        obtain ⟨log, _, rfl⟩ := List.mem_map.mp member <;> rfl
    have entering := Shows.one step (by simp [kind])
    rw [indexed, shown, kind] at entering
    have start : record.index = index + (before.map (fun _ => (⟨calls, none⟩ : Expected)) ++
        entry.leading.map fun _ => (⟨callsOf frames ++ [frame.call], none⟩ : Expected)).length := by
      simp [record, Located.recordOn, Nat.add_assoc]
    have both := silent.append (start ▸ entering)
    simpa [Entry.expected, call] using both

end

end SolTrace
