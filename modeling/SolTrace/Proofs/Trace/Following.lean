import Mathlib.Data.List.Nodup
import SolTrace.Proofs.Trace.CallTree
/-!
Following a tree: what the logs of a call tree do to the alignment of a trace, from a single log to
a whole tree. Contexts that were entered but left again before they executed a log stay below.
-/
set_option autoImplicit false

namespace SolTrace

/-! ### One log -/

namespace Alignment

/-- What the logs of a tree add to an alignment, apart from the active contexts. -/
structure Extends (registry : Registry) (before after : Alignment) (entered : Nat)
    (located : List Located) : Prop where
  entered : after.entered = before.entered + entered
  addresses : after.addresses.toList =
    before.addresses.toList ++ located.map fun located => located.visit.context.address
  records : after.records.toList =
    before.records.toList ++ located.filterMap (Located.record? registry)

theorem Extends.nil (registry : Registry) (alignment : Alignment) :
    Extends registry alignment alignment 0 [] := by
  constructor <;> simp

theorem Extends.append {registry : Registry} {before middle after : Alignment} {first second : Nat}
    {front back : List Located} (left : Extends registry before middle first front)
    (right : Extends registry middle after second back) :
    Extends registry before after (first + second) (front ++ back) := by
  constructor
  · rw [right.entered, left.entered, Nat.add_assoc]
  · rw [right.addresses, left.addresses, List.map_append, List.append_assoc]
  · rw [right.records, left.records, List.filterMap_append, List.append_assoc]

theorem record?_eq (registry : Registry) (visit : Visit) (outer : List Visit) (index : Nat)
    (log : StructLog) (known : visit.context.code ∈ registry.codes) :
    record? registry ((visit :: outer).map Visit.context) visit.context index log =
      .ok (Located.record? registry ⟨index, log, visit, outer⟩) := by
  obtain ⟨contract, isCreation, found⟩ := registry.exists_byCode known
  unfold record? Located.record? instructionAt?
  simp only [found, ok_bind, Except.toOption, Option.bind_eq_bind, Option.bind_some]
  cases lookup : (contract.code isCreation).at? log.pc with
  | none => rfl
  | some mapped =>
      have member : mapped ∈ (contract.code isCreation).mapped :=
        List.mem_of_find?_eq_some lookup
      obtain ⟨node, stored⟩ := contract.code_within isCreation mapped member
      simp [Ast.node, stored, Located.recordOn, Located.path, Function.comp_def]

/-- Whether the active contexts are those of the given nodes, innermost first, apart from contexts
of at least a depth that no log has left yet. -/
def Within (alignment : Alignment) (depth : Nat) (nodes : List Visit) : Prop :=
  ∃ deeper, alignment.contexts = deeper ++ nodes.map Visit.context ∧
    ∀ context ∈ deeper, depth ≤ context.depth

theorem Within.stop {alignment : Alignment} {visit : Visit} {outer : List Visit}
    (within : Within alignment (visit.context.depth + 1) (visit :: outer)) :
    Within alignment visit.context.depth outer := by
  obtain ⟨deeper, contexts, below⟩ := within
  refine ⟨deeper ++ [visit.context], by simp [contexts], ?_⟩
  intro context member
  rcases List.mem_append.mp member with member | member
  · exact Nat.le_of_succ_le (below context member)
  · obtain rfl := List.mem_singleton.mp member
    exact Nat.le_refl _

theorem leaveDeeper_contexts {alignment : Alignment} {visit : Visit} {outer : List Visit}
    (within : Within alignment (visit.context.depth + 1) (visit :: outer)) :
    (alignment.leaveDeeper visit.context.depth).contexts = (visit :: outer).map Visit.context := by
  obtain ⟨deeper, contexts, below⟩ := within
  unfold leaveDeeper
  simp only [contexts]
  have dropped : ∀ context ∈ deeper, decide (visit.context.depth < context.depth) = true :=
    fun context member => decide_eq_true (below context member)
  rw [List.dropWhile_append_of_pos dropped]
  simp

theorem addLog_eq (registry : Registry) (inputs : TraceInputs) {before : Alignment}
    {visit : Visit} {outer : List Visit} (index : Nat) (log : StructLog)
    (within : Within before (visit.context.depth + 1) (visit :: outer))
    (depth : log.depth = visit.context.depth)
    (known : visit.context.code ∈ registry.codes) :
    ∃ alignment : Alignment, alignment.contexts = (visit :: outer).map Visit.context ∧
      Extends registry before alignment 0 [⟨index, log, visit, outer⟩] ∧
      addLog registry inputs before (log, index) =
        alignment.follow registry inputs visit.context index log
          (Located.record? registry ⟨index, log, visit, outer⟩) := by
  have contexts := leaveDeeper_contexts within
  refine ⟨(before.leaveDeeper visit.context.depth).assign visit.context
    (Located.record? registry ⟨index, log, visit, outer⟩), contexts, ?_, ?_⟩
  · constructor
    · rfl
    · simp [assign, leaveDeeper]
    · cases record : Located.record? registry ⟨index, log, visit, outer⟩ <;>
        simp [assign, leaveDeeper, record]
  · have record := record?_eq registry visit outer index log known
    simp only [addLog, depth, contexts, List.map_cons] at record ⊢
    rw [record, ok_bind]

/-! ### Entering and leaving -/

theorem not_isCreate_of_isCall {log : StructLog} (isCall : log.isCall = true) :
    log.isCreate = false := by
  simp only [StructLog.isCall, List.contains_eq_mem, List.mem_cons, List.not_mem_nil, or_false,
    decide_eq_true_eq] at isCall
  rcases isCall with op | op | op | op <;> simp [StructLog.isCreate, op]

theorem innerAddress_of_isCall {log : StructLog} (isCall : log.isCall = true)
    (current : ContextAddress) (index : Nat) :
    Execution.innerAddress current index log = Execution.calleeAddress current log := by
  simp [Execution.innerAddress, not_isCreate_of_isCall isCall]

theorem calledAddress_eq {log : StructLog} (isCall : log.isCall = true) {word : Word}
    (operand : log.peek? 1 = some word) (current : ContextAddress) :
    calledAddress log current (Address.ofWord word) = Execution.calleeAddress current log := by
  simp only [StructLog.isCall, List.contains_eq_mem, List.mem_cons, List.not_mem_nil, or_false,
    decide_eq_true_eq] at isCall
  rcases isCall with op | op | op | op <;>
    simp [calledAddress, Execution.calleeAddress, op, operand]

theorem called?_target {inputs : TraceInputs} {log : StructLog} {target : Address}
    {text : List UInt8} (called : called? inputs log = some (target, text)) :
    ∃ word, log.peek? 1 = some word ∧ target = Address.ofWord word := by
  unfold called? at called
  cases operand : log.peek? 1 with
  | none => simp [operand] at called
  | some word =>
      simp only [operand, Option.bind_eq_bind, Option.bind_some, Option.bind_eq_some_iff] at called
      obtain ⟨code, _, equal⟩ := called
      cases equal
      exact ⟨word, rfl, rfl⟩

theorem mem_codes_of_innerCode? {registry : Registry} {inputs : TraceInputs}
    {code inner : BytecodeId} {log : StructLog} (identified : Execution.Identified registry inputs code log)
    (enters : Execution.innerCode? registry inputs code log = some inner) :
    inner ∈ registry.codes := by
  rcases identified with ⟨isCall, _⟩ | ⟨_, created, equal, known⟩
  · simp only [Execution.innerCode?, isCall, ↓reduceIte, Option.bind_eq_some_iff] at enters
    obtain ⟨called, _, found⟩ := enters
    cases result : registry.identify called.2 with
    | error error => simp [result, Except.toOption] at found
    | ok id =>
        rw [result, Except.toOption, Option.some.injEq] at found
        exact found ▸ registry.mem_codes_of_identify result
  · rw [equal] at enters
    cases enters
    exact known

theorem innerCode?_of_called {registry : Registry} {inputs : TraceInputs} {log : StructLog}
    {target : Address} {text : List UInt8} {inner : BytecodeId} (isCall : log.isCall = true)
    (called : called? inputs log = some (target, text))
    (identified : registry.identify text = .ok inner) (code : BytecodeId) :
    Execution.innerCode? registry inputs code log = some inner ∧
      Execution.Identified registry inputs code log := by
  constructor
  · simp [Execution.innerCode?, isCall, called, identified, Except.toOption]
  · refine Or.inl ⟨isCall, ?_⟩
    intro other same
    rw [called, Option.some.injEq] at same
    subst same
    exact ⟨inner, identified⟩

/-- An instruction that enters code enters exactly the context that the tree tells. -/
theorem follow_enters (registry : Registry) (inputs : TraceInputs) (alignment : Alignment)
    (visit : Visit) (outer : List Visit) (index : Nat) (log : StructLog)
    (continues : log.isHalt = false)
    (identified : Execution.Identified registry inputs visit.context.code log) :
    alignment.follow registry inputs visit.context index log
        (Located.record? registry ⟨index, log, visit, outer⟩) =
      .ok (match Execution.innerCode? registry inputs visit.context.code log with
        | none => alignment
        | some code => alignment.enter code
            (Execution.innerAddress visit.context.address index log) (log.depth + 1)) := by
  rcases identified with ⟨isCall, identified⟩ | ⟨isCreate, created, equal, _⟩
  · simp only [follow, continues, isCall, enterCall, Execution.innerCode?, ↓reduceIte,
      Bool.false_eq_true]
    cases called : called? inputs log with
    | none => rfl
    | some found =>
        obtain ⟨target, text⟩ := found
        obtain ⟨inner, identity⟩ := identified (target, text) called
        obtain ⟨word, operand, rfl⟩ := called?_target called
        simp [identity, Except.toOption, calledAddress_eq isCall operand,
          innerAddress_of_isCall isCall, pure, Except.pure]
  · have isCall : log.isCall = false := by
      by_contra call
      have := not_isCreate_of_isCall (by simpa using call)
      simp [isCreate] at this
    have place : ((Located.record? registry ⟨index, log, visit, outer⟩).map
        fun record => (record.contract.ast, record.node)) =
        (instructionAt? registry visit.context.code log.pc).map
          fun found => (found.1.ast, found.2.2) := by
      simp [Located.record?, Located.recordOn, Function.comp_def]
    simp only [Execution.innerCode?, isCall, Bool.false_eq_true, ↓reduceIte] at equal ⊢
    simp only [follow, continues, isCall, isCreate, enterCreate, place, ↓reduceIte,
      Bool.false_eq_true, Execution.innerAddress]
    cases result : createdCode registry log
        ((instructionAt? registry visit.context.code log.pc).map
          fun found => (found.1.ast, found.2.2)) with
    | error error => simp [result, Except.toOption] at equal
    | ok code => simp [Except.toOption, pure, Except.pure]

/-! ### Trees -/

/-- Whether aligning the logs of a tree attributes each to its node, and leaves the context of the
tree, or leaves it to the next log. -/
def Aligned (registry : Registry) (inputs : TraceInputs) (execution : Execution) : Prop :=
  ∀ (visit : Visit) (outer : List Visit) (index : Nat) (before : Alignment),
    Within before (visit.context.depth + 1) (visit :: outer) →
    visit.context.code ∈ registry.codes →
    execution.WellFormed registry inputs visit.context.code visit.context.depth →
    ∃ after, (execution.logs.zipIdx index).foldlM (addLog registry inputs) before = .ok after ∧
      Extends registry before after (execution.entries registry inputs visit.context.code)
        (execution.executed registry inputs visit outer index before.entered) ∧
      Within after visit.context.depth outer ∧
      (execution.Halts → after.contexts = outer.map Visit.context)

section

variable {registry : Registry} {inputs : TraceInputs}

theorem stops_aligned : Aligned registry inputs .stops :=
  fun _ _ _ before within _ _ =>
    ⟨before, rfl, Extends.nil registry before, within.stop, False.elim⟩

theorem halts_aligned (log : StructLog) : Aligned registry inputs (.halts log) := by
  intro visit outer index before within known wellFormed
  obtain ⟨depth, isHalt⟩ := wellFormed
  obtain ⟨aligned, contexts, extended, step⟩ :=
    addLog_eq registry inputs index log within depth known
  have left : aligned.leave.contexts = outer.map Visit.context := by simp [leave, contexts]
  refine ⟨aligned.leave, ?_, ?_, ⟨[], by simpa using left, by simp⟩, fun _ => left⟩
  · simp [Execution.logs, step, follow, isHalt, pure, Except.pure]
  · exact ⟨extended.entered, extended.addresses, extended.records⟩

theorem next_aligned (log : StructLog) {rest : Execution} (ih : Aligned registry inputs rest) :
    Aligned registry inputs (.next log rest) := by
  intro visit outer index before within known wellFormed
  obtain ⟨depth, isHalt, isCall, isCreate, restFormed⟩ := wellFormed
  obtain ⟨aligned, contexts, extended, step⟩ :=
    addLog_eq registry inputs index log within depth known
  obtain ⟨after, run, extension, left, halted⟩ := ih visit outer (index + 1) aligned
    ⟨[], by simpa using contexts, by simp⟩ known restFormed
  refine ⟨after, ?_, ?_, left, halted⟩
  · simpa [Execution.logs, List.zipIdx_cons, step, follow, isHalt, isCall, isCreate] using run
  · rw [extended.entered] at extension
    simpa [Execution.entries, Execution.executed] using extended.append extension

/-- The context that an instruction enters is put on top of the others, and is left by its own
logs or by the next one. -/
theorem enters_aligned (log : StructLog) {inner rest : Execution}
    (innerIH : Aligned registry inputs inner) (restIH : Aligned registry inputs rest) :
    Aligned registry inputs (.enters log inner rest) := by
  intro visit outer index before within known wellFormed
  obtain ⟨depth, isHalt, identified, innerFormed, restFormed⟩ := wellFormed
  obtain ⟨aligned, contexts, extended, step⟩ :=
    addLog_eq registry inputs index log within depth known
  rw [follow_enters registry inputs aligned visit outer index log isHalt identified] at step
  cases enters : Execution.innerCode? registry inputs visit.context.code log with
  | none =>
      simp only [enters] at innerFormed step
      obtain ⟨after, run, extension, left, halted⟩ := restIH visit outer (index + 1) aligned
        ⟨[], by simpa using contexts, by simp⟩ known restFormed
      refine ⟨after, ?_, ?_, left, halted⟩
      · simpa [Execution.logs, innerFormed, List.zipIdx_cons, step] using run
      · rw [extended.entered] at extension
        simpa [Execution.entries, Execution.executed, enters] using extended.append extension
  | some code =>
      simp only [enters] at innerFormed step
      let entering : Visit :=
        ⟨index + 1, aligned.entered, code,
          Execution.innerAddress visit.context.address index log, visit.context.depth + 1⟩
      let entered := aligned.enter code entering.context.address (log.depth + 1)
      have stack : entered.contexts = (entering :: visit :: outer).map Visit.context := by
        simp [entered, entering, enter, contexts, depth]
      obtain ⟨middle, innerRun, innerExtension, innerLeft, _⟩ := innerIH entering
        (visit :: outer) (index + 1) entered ⟨[], by simpa using stack, by simp⟩
        (mem_codes_of_innerCode? identified enters) innerFormed
      obtain ⟨after, restRun, restExtension, left, halted⟩ := restIH visit outer
        (index + 1 + inner.logs.length) middle innerLeft known restFormed
      refine ⟨after, ?_, ?_, left, halted⟩
      · simp only [Execution.logs, List.zipIdx_cons, List.foldlM_cons, step, ok_bind,
          List.zipIdx_append, List.foldlM_append]
        exact bind_eq_ok.mpr ⟨middle, innerRun, restRun⟩
      · have entry : Extends registry aligned entered 1 [] := by
          constructor <;> simp [entered, enter]
        have extension := (extended.append entry).append (innerExtension.append restExtension)
        rw [innerExtension.entered] at extension
        simpa [Execution.entries, Execution.executed, enters, entered, entering, enter,
          extended.entered, Nat.add_assoc] using extension

end

theorem foldlM_logs (registry : Registry) (inputs : TraceInputs) (execution : Execution) :
    Aligned registry inputs execution := by
  induction execution with
  | stops => exact stops_aligned
  | halts log => exact halts_aligned log
  | next log rest ih => exact next_aligned log ih
  | enters log inner rest innerIH restIH => exact enters_aligned log innerIH restIH

end Alignment

end SolTrace
