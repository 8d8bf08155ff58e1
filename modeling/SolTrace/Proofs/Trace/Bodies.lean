import SolTrace.Proofs.Trace.Opening
/-!
Bodies of functions: by induction on a body, what its logs do to the active functions and to the
steps.
-/
set_option autoImplicit false

namespace SolTrace

open Activation Reduction

namespace Activation

/-- How many contexts the message calls of a body enter. -/
def Body.contexts : Body → Nat
  | .exit _ => 0
  | .cut => 0
  | .plain _ rest => rest.contexts
  | .internal _ _ callee rest => callee.contexts + rest.contexts
  | .message _ _ _ callee _ rest => 1 + callee.contexts + rest.contexts

end Activation

theorem chain_logs (logs : List StructLog) (rest : Execution) :
    (chain logs rest).logs = logs ++ rest.logs := by
  induction logs with
  | nil => rfl
  | cons log logs ih => simpa [chain, Execution.logs] using ih

theorem chain_entries (registry : Registry) (inputs : TraceInputs) (code : BytecodeId)
    (logs : List StructLog) (rest : Execution) :
    (chain logs rest).entries registry inputs code = rest.entries registry inputs code := by
  induction logs with
  | nil => rfl
  | cons log logs ih => simpa [chain, Execution.entries] using ih

theorem chain_halts (logs : List StructLog) (rest : Execution) :
    (chain logs rest).Halts ↔ rest.Halts := by
  induction logs with
  | nil => rfl
  | cons log logs ih => exact ih

theorem chain_wellFormed {registry : Registry} {inputs : TraceInputs} {code : BytecodeId}
    {depth : Nat} {logs : List StructLog} {rest : Execution}
    (ordinary : ∀ log ∈ logs, Ordinary depth log)
    (wellFormed : rest.WellFormed registry inputs code depth) :
    (chain logs rest).WellFormed registry inputs code depth := by
  induction logs with
  | nil => exact wellFormed
  | cons log logs ih =>
      obtain ⟨level, isHalt, isCall, isCreate⟩ := ordinary log List.mem_cons_self
      exact ⟨level, isHalt, isCall, isCreate,
        ih fun later member => ordinary later (List.mem_cons_of_mem _ member)⟩

theorem entry_logs (entry : Entry) (rest : Execution) :
    (entry.execution rest).logs = entry.leading ++ entry.last :: rest.logs := by
  simp [Entry.execution, chain_logs, Execution.logs]

theorem entry_wellFormed {registry : Registry} {inputs : TraceInputs} {code : BytecodeId}
    {depth : Nat} {entry : Entry} {rest : Execution}
    (formed : entry.WellFormed registry code depth)
    (wellFormed : rest.WellFormed registry inputs code depth) :
    (entry.execution rest).WellFormed registry inputs code depth := by
  obtain ⟨level, isHalt, isCall, isCreate⟩ := formed.ordinary
  exact chain_wellFormed (fun log member => (formed.leading log member).1)
    ⟨level, isHalt, isCall, isCreate, wellFormed⟩

theorem halting_isHalt {registry : Registry} {code : BytecodeId} {depth : Nat} {body : Body}
    {halt : StructLog} (halting : Halting registry code depth body halt) : halt.isHalt = true := by
  rcases halting.op with op | op | op <;> simp [StructLog.isHalt, op]

theorem identified_of_innerCode? {registry : Registry} {inputs : TraceInputs}
    {code inner : BytecodeId} {log : StructLog} (isCall : log.isCall = true)
    (enters : Execution.innerCode? registry inputs code log = some inner) :
    Execution.Identified registry inputs code log := by
  refine Or.inl ⟨isCall, ?_⟩
  intro called found
  simp only [Execution.innerCode?, isCall, ↓reduceIte, found, Option.bind_some] at enters
  cases identity : registry.identify called.2 with
  | error error => simp [identity, Except.toOption] at enters
  | ok id => exact ⟨id, rfl⟩

section

variable {registry : Registry} {inputs : TraceInputs}

theorem body_logs (registry : Registry) (inputs : TraceInputs) (body : Body) :
    ∀ (code : BytecodeId) (address : ContextAddress) (function : Node) (calls : List CallFrame)
      (rest : Execution),
      (body.execution rest).logs.length =
        (body.expected registry inputs code address function calls).length +
          rest.logs.length := by
  induction body with
  | exit log => intros; simp [Body.execution, Body.expected, Execution.logs, Nat.add_comm]
  | cut => intros; simp [Body.execution, Body.expected]
  | plain log body ih =>
      intro code address function calls rest
      have size := ih code address function calls rest
      simp only [Body.execution, Body.expected, Execution.logs, List.length_cons]
      omega
  | internal site entry callee body calleeIH ih =>
      intro code address function calls rest
      have inner := calleeIH code address entry.function
        (calls ++ [frameOf registry code address function]) (body.execution rest)
      have size := ih code address function calls rest
      simp only [Body.execution, Body.expected, Execution.logs, entry_logs, Entry.expected,
        List.length_cons, List.length_append, List.length_map, List.length_nil]
      omega
  | message site before entry callee halt body calleeIH ih =>
      intro code address function calls rest
      have inner := calleeIH ((Execution.innerCode? registry inputs code site).getD 0)
        (Execution.calleeAddress address site) entry.function
        (calls ++ [frameOf registry code address function]) (.halts halt)
      have size := ih code address function calls rest
      simp only [Body.execution, Body.expected, Execution.logs, chain_logs, entry_logs,
        Entry.expected, List.length_cons, List.length_append, List.length_map,
        List.length_nil] at inner ⊢
      omega

theorem body_entries (body : Body) :
    ∀ {code : BytecodeId} {depth : Nat} {halt : StructLog} {function : Node} (rest : Execution),
      body.WellFormed registry inputs code depth halt function →
      (body.execution rest).entries registry inputs code =
        body.contexts + rest.entries registry inputs code := by
  induction body with
  | exit log => intros; simp [Body.execution, Body.contexts, Execution.entries]
  | cut => intros; simp [Body.execution, Body.contexts]
  | plain log body ih =>
      intro code depth halt function rest wellFormed
      exact ih rest wellFormed.2.2
  | internal site entry callee body calleeIH ih =>
      intro code depth halt function rest wellFormed
      obtain ⟨_, _, _, _, calleeFormed, _, formed⟩ := wellFormed
      simp only [Body.execution, Body.contexts, Execution.entries, Entry.execution, chain_entries]
      rw [calleeIH _ calleeFormed, ih rest formed]
      omega
  | message site before entry callee inner body calleeIH ih =>
      intro code depth halt function rest wellFormed
      obtain ⟨_, _, _, _, ⟨innerCode, enters, _, _, _, calleeFormed, _⟩, formed⟩ := wellFormed
      simp only [Body.execution, Body.contexts, Execution.entries, enters, Entry.execution,
        chain_entries]
      rw [calleeIH _ calleeFormed, ih rest formed, Execution.entries]
      omega

/-- A body is a part of a call tree. -/
theorem body_wellFormed (body : Body) :
    ∀ {code : BytecodeId} {depth : Nat} {halt : StructLog} {function : Node} {rest : Execution},
      body.WellFormed registry inputs code depth halt function →
      rest.WellFormed registry inputs code depth →
      (body.execution rest).WellFormed registry inputs code depth := by
  induction body with
  | exit log =>
      intro code depth halt function rest wellFormed after
      obtain ⟨⟨level, isHalt, isCall, isCreate⟩, _⟩ := wellFormed
      exact ⟨level, isHalt, isCall, isCreate, after⟩
  | cut => exact fun _ after => after
  | plain log body ih =>
      intro code depth halt function rest wellFormed after
      obtain ⟨⟨level, isHalt, isCall, isCreate⟩, _, formed⟩ := wellFormed
      exact ⟨level, isHalt, isCall, isCreate, ih formed after⟩
  | internal site entry callee body calleeIH ih =>
      intro code depth halt function rest wellFormed after
      obtain ⟨⟨level, isHalt, isCall, isCreate⟩, _, entered, _, calleeFormed, _, formed⟩ := wellFormed
      exact ⟨level, isHalt, isCall, isCreate,
        entry_wellFormed entered (calleeIH calleeFormed (ih formed after))⟩
  | message site before entry callee inner body calleeIH ih =>
      intro code depth halt function rest wellFormed after
      obtain ⟨level, isHalt, isCall, _, ⟨innerCode, enters, outside, entered, _, calleeFormed,
        halting⟩, formed⟩ := wellFormed
      refine ⟨level, isHalt, identified_of_innerCode? isCall enters, ?_, ih formed after⟩
      rw [enters]
      exact chain_wellFormed (fun log member => (outside log member).1)
        (entry_wellFormed entered (calleeIH calleeFormed ⟨halting.depth, halting_isHalt halting⟩))

theorem head_of_mapped {visit : Visit} {outer : List Visit} {index : Nat} {log : StructLog}
    {condition : Contract → JumpType → Node → Prop}
    (mapped : Mapped registry visit.context.code log condition)
    (inside : ∀ contract jump node, condition contract jump node → node.kind ≠ .functionDefinition)
    (records : List Record) :
    ∃ next, ((Located.record? registry ⟨index, log, visit, outer⟩).toList ++ records).head? =
      some next ∧ next.node.kind ≠ .functionDefinition := by
  obtain ⟨contract, place, node, found, holds⟩ := mapped
  refine ⟨Located.recordOn ⟨index, log, visit, outer⟩ contract place node, ?_,
    inside _ _ _ holds⟩
  simp [Located.record?, found]

/-- What follows an entry is not on the function's definition any more. -/
theorem head_of_leads (records : List Record) (body : Body) :
    ∀ (visit : Visit) (outer : List Visit) (index entered : Nat) {depth : Nat} {halt : StructLog}
      {function : Node} {rest : Execution},
      body.WellFormed registry inputs visit.context.code depth halt function →
      body.Leads registry visit.context.code halt → (body.Completes ∨ rest = .halts halt) →
      ∃ next, (recordsOf registry ((body.execution rest).executed registry inputs visit outer index
        entered) ++ records).head? = some next ∧ next.node.kind ≠ .functionDefinition := by
  induction body with
  | exit log =>
      intro visit outer index entered depth halt function rest _ leads _
      exact leads.elim
  | cut =>
      intro visit outer index entered depth halt function rest _ leads final
      obtain completes | rfl := final
      · exact completes.elim
      · simpa [Body.execution, Execution.executed, recordsOf] using
          head_of_mapped leads (fun _ _ _ inside => inside) records
  | plain log body ih =>
      intro visit outer index entered depth halt function rest wellFormed leads final
      simp only [Body.execution, Execution.executed, recordsOf_cons, List.append_assoc]
      cases found : instructionAt? registry visit.context.code log.pc with
      | none =>
          have skipped : (Located.record? registry ⟨index, log, visit, outer⟩).toList = [] := by
            simp [Located.record?, found]
          rw [skipped]
          exact ih visit outer _ _ wellFormed.2.2 (leads.2 found) final
      | some place =>
          exact head_of_mapped ⟨place.1, place.2.1, place.2.2, found, leads.1 _ _ _ found⟩
            (fun _ _ _ inside => inside) _
  | internal site entry callee body _ _ =>
      intro visit outer index entered depth halt function rest wellFormed _ _
      simp only [Body.execution, Execution.executed, recordsOf_cons, List.append_assoc]
      refine head_of_mapped wellFormed.2.1 ?_ _
      intro contract jump node call
      rw [call.2]
      decide
  | message site before entry callee inner body _ _ =>
      intro visit outer index entered depth halt function rest _ leads _
      simp only [Body.execution, Execution.executed, recordsOf_cons, List.append_assoc]
      exact head_of_mapped leads (fun _ _ _ inside => inside) _

theorem unfinished_of_completes (body : Body) :
    ∀ {code : BytecodeId} {depth : Nat} {halt : StructLog} {function : Node},
      body.WellFormed registry inputs code depth halt function → body.Completes →
      body.unfinished function = [] := by
  induction body with
  | exit log => intros; rfl
  | cut => exact fun _ completes => completes.elim
  | plain log body ih => exact fun wellFormed completes => ih wellFormed.2.2 completes
  | internal site entry callee body calleeIH ih =>
      intro code depth halt function wellFormed completes
      obtain ⟨_, _, _, _, calleeFormed, ends, formed⟩ := wellFormed
      rcases ends with calleeCompletes | rfl
      · simp [Body.unfinished, calleeIH calleeFormed calleeCompletes, ih formed completes]
      · exact completes.elim
  | message site before entry callee inner body _ ih =>
      exact fun wellFormed completes => ih wellFormed.2.2.2.2.2 completes

/-- The functions that a body leaves unfinished stay on the stack, and everything else that it
enters is left again. -/
structure Left (registry : Registry) (visit : Visit) (outer : List Visit) (entered : Nat)
    (unfinished : List Node) (left frames : List Frame) (progress : Progress) : Prop where
  disarmed : progress.armed = false
  standing : Standing progress.state (ids visit outer) entered (left ++ frames)
  inside : ∀ frame ∈ left, frame.context = visit.context.id
  calls : callsOf left =
    unfinished.map (frameOf registry visit.context.code visit.context.address)

section

variable {visit : Visit} {outer : List Visit} {entered : Nat} {left frames : List Frame}
  {progress : Progress}

/-- A body that completes leaves nothing on the stack. -/
theorem Left.nothing {body : Body} {function : Node} {code : BytecodeId} {depth : Nat}
    {halt : StructLog}
    (leaves : Left registry visit outer entered (body.unfinished function) left frames progress)
    (formed : body.WellFormed registry inputs code depth halt function)
    (completes : body.Completes) : left = [] := by
  have calls := leaves.calls
  rw [unfinished_of_completes body formed completes] at calls
  simpa [callsOf] using calls

/-- A function whose callee stays on the stack stays there too. -/
theorem Left.around {unfinished : List Node} {function : Node} {frame : Frame}
    (leaves : Left registry visit outer entered unfinished left (frame :: frames) progress)
    (context : frame.context = visit.context.id)
    (call : frame.call = frameOf registry visit.context.code visit.context.address function) :
    Left registry visit outer entered (function :: unfinished) (left ++ [frame]) frames
      progress where
  disarmed := leaves.disarmed
  standing := by
    rw [List.append_assoc]
    exact leaves.standing
  inside other member := by
    rcases List.mem_append.mp member with member | member
    · exact leaves.inside other member
    · rw [List.mem_singleton.mp member]
      exact context
  calls := by
    rw [callsOf_append, leaves.calls]
    simp [callsOf, call]

end

/-- Whether the replay follows a body wherever it is executed. -/
def Followed (registry : Registry) (inputs : TraceInputs) (body : Body) : Prop :=
  ∀ (visit : Visit) (outer : List Visit) (index entered last later depth : Nat) (halt : StructLog)
    (function : Node) (rest : Execution) (records : List Record) (frame : Frame)
    (frames : List Frame) (progress : Progress),
    body.WellFormed registry inputs visit.context.code depth halt function →
    function.kind = .functionDefinition → (body.Completes ∨ rest = .halts halt) →
    Running registry visit outer entered function frame frames progress →
    last = index + (body.expected registry inputs visit.context.code visit.context.address
      function (callsOf frames)).length →
    later = entered + body.contexts →
    ∃ (after : Progress) (left : List Frame),
      progress.Reaches
        (recordsOf registry ((body.execution rest).executed registry inputs visit outer index
          entered) ++ records)
        index
        (body.expected registry inputs visit.context.code visit.context.address function
          (callsOf frames))
        after
        (recordsOf registry (rest.executed registry inputs visit outer last later) ++ records) ∧
      Left registry visit outer later (body.unfinished function) left frames after

theorem exit_followed (log : StructLog) : Followed registry inputs (.exit log) := by
  intro visit outer index entered last later depth halt function rest records frame frames progress
    wellFormed kind _ running ends counts
  obtain ⟨ordinary, mapped⟩ := wellFormed
  have named : frame.call.function = function.functionName := by
    rw [running.call]
    rfl
  obtain ⟨after, reaches, disarmed, standing⟩ := reaches_exit visit outer index
    (recordsOf registry (rest.executed registry inputs visit outer (index + 1) entered) ++ records)
    running.disarmed running.standing ordinary kind mapped named
  subst ends counts
  refine ⟨after, [], ?_, disarmed, standing, by simp, by simp [callsOf, Body.unfinished]⟩
  simpa [Body.execution, Execution.executed, Body.expected, Body.contexts, running.call]
    using reaches

theorem cut_followed : Followed registry inputs .cut := by
  intro visit outer index entered last later depth halt function rest records frame frames progress
    _ _ _ running ends counts
  subst ends counts
  exact ⟨progress, [frame], Progress.Reaches.refl _ _ _, running.disarmed, running.standing,
    by simp [running.context], by simp [callsOf, Body.unfinished, running.call]⟩

theorem plain_followed (log : StructLog) {body : Body} (followed : Followed registry inputs body) :
    Followed registry inputs (.plain log body) := by
  intro visit outer index entered last later depth halt function rest records frame frames progress
    wellFormed kind final running ends counts
  obtain ⟨ordinary, regular, formed⟩ := wellFormed
  obtain ⟨middle, first, disarmed, standing⟩ := reaches_regular visit outer index
    (recordsOf registry ((body.execution rest).executed registry inputs visit outer (index + 1)
      entered) ++ records) running.disarmed running.standing
    (Record.not_return_of_isHalt ordinary.isHalt) ordinary.isCall ordinary.isCreate regular
  have size : last = index + 1 + (body.expected registry inputs visit.context.code
      visit.context.address function (callsOf frames)).length := by
    simp only [Body.expected, List.length_cons] at ends
    omega
  obtain ⟨after, left, second, leaves⟩ := followed _ _ _ _ _ _ _ _ _ rest records _ _ _ formed kind
    final ⟨disarmed, standing, running.context, running.call⟩ size counts
  refine ⟨after, left, ?_, leaves⟩
  have both := first.trans second rfl
  simpa [Body.execution, Execution.executed, Body.expected, running.call] using both

/-- A callee that does not exit is the last thing that its context executes. -/
theorem internal_followed (site : StructLog) (entry : Entry) {callee body : Body}
    (calleeFollowed : Followed registry inputs callee) (followed : Followed registry inputs body) :
    Followed registry inputs (.internal site entry callee body) := by
  intro visit outer index entered last later depth halt function rest records frame frames progress
    wellFormed kind final running ends counts
  obtain ⟨ordinary, mapped, entryFormed, leads, calleeFormed, returns, formed⟩ := wellFormed
  have calling : Mapped registry visit.context.code site fun contract jump node =>
      jump ≠ .out ∧ Resolvable contract node ∧
        (site.isCall = true ∨ jump = .into ∧ node.kind = .functionCall) := by
    obtain ⟨contract, place, node, found, into, call⟩ := mapped
    refine ⟨contract, place, node, found, by simp [into], ?_, Or.inr ⟨into, call⟩⟩
    intro declares
    rw [call] at declares
    contradiction
  have calleeFinal : callee.Completes ∨ body.execution rest = .halts halt := by
    rcases returns with completes | rfl
    · exact Or.inl completes
    · rcases final with completes | rfl
      · exact completes.elim
      · exact Or.inr rfl
  obtain ⟨called, first, armed, standing⟩ := reaches_site visit outer index
    (recordsOf registry ((entry.execution (callee.execution (body.execution rest))).executed
      registry inputs visit outer (index + 1) entered) ++ records) running.standing
    (Record.not_return_of_isHalt ordinary.isHalt) calling
  obtain ⟨next, following, inside⟩ := head_of_leads records callee visit outer
    (index + 1 + 0 + entry.leading.length + 1) entered calleeFormed leads calleeFinal
  obtain ⟨opened, inner, second, runs⟩ := opening_reaches visit outer [] (by simp) entryFormed
    (index + 1) rfl following inside armed standing []
  obtain ⟨middle, calleeLeft, third, leaves⟩ := calleeFollowed _ _ _ _ _ _ _ _ _ _ records _ _ _
    calleeFormed entryFormed.kind calleeFinal runs rfl rfl
  have before := first.trans (second.trans third (by simp [Entry.expected]; omega)) rfl
  simp only [Body.expected, Entry.expected, Body.contexts, List.length_cons, List.length_append,
    List.length_map, List.length_nil] at ends counts
  rcases returns with completes | rfl
  · obtain rfl := leaves.nothing calleeFormed completes
    have size : last = index + 1 + 0 + entry.leading.length + 1 +
        (callee.expected registry inputs visit.context.code visit.context.address entry.function
          (callsOf (frame :: frames))).length +
        (body.expected registry inputs visit.context.code visit.context.address function
          (callsOf frames)).length := by
      rw [callsOf_cons, running.call]
      omega
    obtain ⟨after, left, fourth, rests⟩ := followed _ _ _ _ _ _ _ _ _ rest records _ _ _ formed kind
      final ⟨leaves.disarmed, leaves.standing, running.context, running.call⟩ size
      (counts.trans (Nat.add_assoc _ _ _).symm)
    refine ⟨after, left, ?_, ?_⟩
    · have whole := before.trans fourth (by simp [Entry.expected]; omega)
      simpa [Body.execution, Execution.executed, Body.expected, running.call, chain] using whole
    · simpa [Body.unfinished, unfinished_of_completes callee calleeFormed completes] using rests
  · have same : last = index + 1 + 0 + entry.leading.length + 1 +
        (callee.expected registry inputs visit.context.code visit.context.address entry.function
          (callsOf (frame :: frames))).length := by
      rw [callsOf_cons, running.call]
      simp only [Body.expected, List.length_nil] at ends
      omega
    have all : later = entered + callee.contexts := counts
    rw [same, all]
    have around := leaves.around running.context running.call
    refine ⟨middle, calleeLeft ++ [frame], ?_, by simpa [Body.unfinished] using around⟩
    simpa [Body.execution, Execution.executed, Body.expected, running.call, chain] using before

/-- The records of a message call: that of its site, those of the context that it enters and those
of the rest of the body. -/
theorem message_records (site : StructLog) (before : List StructLog) (entry : Entry)
    (inner : StructLog) (callee body : Body) (visit : Visit) (outer : List Visit)
    (index entered : Nat) (rest : Execution) (records : List Record) {code : BytecodeId}
    {depth : Nat} (isCall : site.isCall = true)
    (enters : Execution.innerCode? registry inputs visit.context.code site = some code)
    (calleeFormed : callee.WellFormed registry inputs code depth inner entry.function)
    (active : List CallFrame) (halts : Nat)
    (ends : halts = index + 1 + before.length + entry.leading.length + 1 +
      (callee.expected registry inputs code
        (Execution.calleeAddress visit.context.address site) entry.function active).length) :
    recordsOf registry ((Body.execution (.message site before entry callee inner body)
        rest).executed registry inputs visit outer index entered) ++ records =
      (Located.record? registry ⟨index, site, visit, outer⟩).toList ++
        (recordsOf registry ((chain before (entry.execution (callee.execution
          (.halts inner)))).executed registry inputs
            ⟨index + 1, entered, code, Execution.calleeAddress visit.context.address site,
              visit.context.depth + 1⟩ (visit :: outer) (index + 1) (entered + 1)) ++
          (recordsOf registry ((body.execution rest).executed registry inputs visit outer
            (halts + 1) (entered + 1 + callee.contexts)) ++ records)) := by
  have size := body_logs registry inputs callee code
    (Execution.calleeAddress visit.context.address site) entry.function active (.halts inner)
  have logs : index + 1 + (chain before (entry.execution (callee.execution
      (.halts inner)))).logs.length = halts + 1 := by
    simp only [chain_logs, entry_logs, List.length_append, List.length_cons, size,
      Execution.logs, List.length_nil, ends]
    omega
  have entries : (chain before (entry.execution (callee.execution
      (.halts inner)))).entries registry inputs code = callee.contexts := by
    rw [chain_entries, Entry.execution, chain_entries, Execution.entries,
      body_entries callee _ calleeFormed]
    rfl
  simp [Body.execution, Execution.executed, enters, logs, entries,
    Alignment.innerAddress_of_isCall isCall]

/-- A message call leaves the functions of the calling context alone. -/
theorem message_followed (site : StructLog) (before : List StructLog) (entry : Entry)
    (inner : StructLog) {callee body : Body} (calleeFollowed : Followed registry inputs callee)
    (followed : Followed registry inputs body) :
    Followed registry inputs (.message site before entry callee inner body) := by
  intro visit outer index entered last later depth halt function rest records frame frames progress
    wellFormed kind final running ends counts
  obtain ⟨_, isHalt, isCall, mapped, ⟨code, enters, outside, entryFormed, leads, calleeFormed,
    halting⟩, formed⟩ := wellFormed
  let entering : Visit :=
    ⟨index + 1, entered, code, Execution.calleeAddress visit.context.address site,
      visit.context.depth + 1⟩
  let active := callsOf (frame :: frames)
  let start := index + 1 + before.length + entry.leading.length + 1
  let halts := start + (callee.expected registry inputs entering.context.code
    entering.context.address entry.function active).length
  let tail := recordsOf registry ((body.execution rest).executed registry inputs visit outer
    (halts + 1) (entered + 1 + callee.contexts)) ++ records
  have listed := message_records site before entry inner callee body visit outer index entered rest
    records isCall enters calleeFormed active halts rfl
  have calling : Mapped registry visit.context.code site fun contract jump node =>
      jump ≠ .out ∧ Resolvable contract node ∧
        (site.isCall = true ∨ jump = .into ∧ node.kind = .functionCall) := by
    obtain ⟨contract, place, node, found, jump, resolvable⟩ := mapped
    exact ⟨contract, place, node, found, jump, resolvable, Or.inl isCall⟩
  obtain ⟨called, first, armed, standing⟩ := reaches_site visit outer index
    (recordsOf registry ((chain before (entry.execution (callee.execution
      (.halts inner)))).executed registry inputs entering (visit :: outer) (index + 1)
      (entered + 1)) ++ tail) running.standing (Record.not_return_of_isHalt isHalt) calling
  obtain ⟨next, following, inside⟩ := head_of_leads tail callee entering (visit :: outer) start
    (entered + 1) calleeFormed leads (Or.inr rfl)
  obtain ⟨opened, innermost, second, runs⟩ := opening_reaches entering (visit :: outer) before
    outside entryFormed (index + 1) rfl following inside armed standing.enter active
  obtain ⟨middle, left, third, leaves⟩ := calleeFollowed entering _ start _ halts _ _ _ _ _ tail
    _ _ _ calleeFormed entryFormed.kind (Or.inr rfl) runs rfl rfl
  have returned : inner.op = "RETURN" →
      ∀ other ∈ left ++ frame :: frames, other.context ≠ entering.context.id := by
    intro returns other member
    have completes : callee.Completes := by
      rcases halting.complete with completes | reverts
      · exact completes
      · simp [returns] at reverts
    obtain rfl := leaves.nothing calleeFormed completes
    exact Nat.ne_of_lt (running.standing.numbered _ (running.standing.active other member))
  obtain ⟨halted, fourth, disarmed, stands⟩ := reaches_halt entering (visit :: outer) halts tail
    leaves.disarmed leaves.standing halting returned
  have back : Standing halted.state (ids visit outer) (entered + 1 + callee.contexts)
      (frame :: frames) :=
    stands.leave running.standing.numbered leaves.inside running.standing.active
  simp only [Body.expected, Entry.expected, Body.contexts, enters, Option.getD_some,
    List.length_cons, List.length_append, List.length_map, List.length_nil] at ends counts
  have same : active = callsOf frames ++
      [frameOf registry visit.context.code visit.context.address function] := by
    simp [active, running.call]
  have size : last = halts + 1 + (body.expected registry inputs visit.context.code
      visit.context.address function (callsOf frames)).length := by
    simp only [halts, start, same, entering]
    omega
  obtain ⟨after, remaining, fifth, rests⟩ := followed visit outer _ _ _ _ _ _ _ rest records frame
    frames halted formed kind final ⟨disarmed, back, running.context, running.call⟩ size
    (by omega : later = entered + 1 + callee.contexts + body.contexts)
  refine ⟨after, remaining, ?_, rests⟩
  have called := first.trans (second.trans third (by simp [Entry.expected, start]; omega)) rfl
  have whole := called.trans (fourth.trans fifth rfl)
    (by
      simp only [Entry.expected, List.length_append, List.length_map, List.length_cons,
        List.length_nil, halts, start, active]
      omega)
  rw [listed]
  simpa [Body.expected, enters, running.call, leaves.calls, active, entering, tail] using whole

theorem body_followed (body : Body) : Followed registry inputs body := by
  induction body with
  | exit log => exact exit_followed log
  | cut => exact cut_followed
  | plain log body ih => exact plain_followed log ih
  | internal site entry callee body calleeIH ih => exact internal_followed site entry calleeIH ih
  | message site before entry callee inner body calleeIH ih =>
      exact message_followed site before entry inner calleeIH ih

end

end SolTrace
