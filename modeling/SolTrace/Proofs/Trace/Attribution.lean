import Mathlib.Data.Set.Function
import SolTrace.Proofs.Contract.Lookup
import SolTrace.Proofs.Trace.Following
/-!
Attribution: the alignment of a trace finds the node of the call tree that executed each log. The
active contexts are those of the node and of the nodes above it, below contexts that were entered
but left again before they executed a log.
-/
set_option autoImplicit false

namespace SolTrace

namespace Execution

/-- Every log of a tree is executed by one node. -/
theorem executed_logs (registry : Registry) (inputs : TraceInputs) (execution : Execution) :
    ∀ (visit : Visit) (outer : List Visit) (index entered : Nat),
      execution.WellFormed registry inputs visit.context.code visit.context.depth →
      (execution.executed registry inputs visit outer index entered).map
          (fun located => (located.log, located.index)) = execution.logs.zipIdx index := by
  induction execution with
  | stops => intro _ _ _ _ _; rfl
  | halts log => intro _ _ _ _ _; rfl
  | next log rest ih =>
      intro visit outer index entered wellFormed
      obtain ⟨_, _, _, _, restFormed⟩ := wellFormed
      simp [executed, logs, List.zipIdx_cons, ih visit outer (index + 1) entered restFormed]
  | enters log inner rest innerIH restIH =>
      intro visit outer index entered wellFormed
      obtain ⟨_, _, _, innerFormed, restFormed⟩ := wellFormed
      cases enters : innerCode? registry inputs visit.context.code log with
      | none =>
          simp only [enters] at innerFormed
          simp [executed, logs, innerFormed, enters, List.zipIdx_cons,
            restIH visit outer (index + 1) entered restFormed]
      | some code =>
          simp only [enters] at innerFormed
          simp [executed, logs, enters, List.zipIdx_cons, List.zipIdx_append,
            innerIH ⟨index + 1, entered, code, _, visit.context.depth + 1⟩ _ _ _ innerFormed,
            restIH visit outer _ _ restFormed]

/-- The nodes of a tree below its own, in the order in which they are entered. -/
def visits (registry : Registry) (inputs : TraceInputs) :
    Context → Nat → Nat → Execution → List Visit
  | _, _, _, .stops => []
  | _, _, _, .halts _ => []
  | current, index, entered, .next _ rest => rest.visits registry inputs current (index + 1) entered
  | current, index, entered, .enters log inner rest =>
      match innerCode? registry inputs current.code log with
      | none => rest.visits registry inputs current (index + 1) entered
      | some code =>
          let entering : Visit :=
            ⟨index + 1, entered, code, innerAddress current.address index log, current.depth + 1⟩
          entering ::
            (inner.visits registry inputs entering.context (index + 1) (entered + 1) ++
              rest.visits registry inputs current (index + 1 + inner.logs.length)
                (entered + 1 + inner.entries registry inputs code))

theorem executed_visits (registry : Registry) (inputs : TraceInputs) (execution : Execution) :
    ∀ (visit : Visit) (outer : List Visit) (index entered : Nat),
      ∀ located ∈ execution.executed registry inputs visit outer index entered,
        ∀ node ∈ located.path, node ∈ visit :: outer ∨
          node ∈ execution.visits registry inputs visit.context index entered := by
  induction execution with
  | stops => simp [executed]
  | halts log => simp [executed, Located.path]; tauto
  | next log rest ih =>
      intro visit outer index entered located member node step
      simp only [executed, List.mem_cons] at member
      rcases member with rfl | member
      · exact Or.inl (by simpa [Located.path, or_comm] using step)
      · exact ih visit outer (index + 1) entered located member node step
  | enters log inner rest innerIH restIH =>
      intro visit outer index entered located member node step
      cases enters : innerCode? registry inputs visit.context.code log with
      | none =>
          simp only [executed, visits, enters, List.mem_cons] at member ⊢
          rcases member with rfl | member
          · exact Or.inl (by simpa [Located.path, or_comm] using step)
          · simpa using restIH visit outer (index + 1) entered located member node step
      | some code =>
          simp only [executed, visits, enters, List.mem_cons, List.mem_append] at member ⊢
          rcases member with rfl | member | member
          · exact Or.inl (by simpa [Located.path, or_comm] using step)
          · have := innerIH _ _ _ _ located member node step
            simp only [List.mem_cons] at this
            tauto
          · have := restIH _ _ _ _ located member node step
            simp only [List.mem_cons] at this
            tauto

/-- Nodes are numbered in the order of the instructions that enter them. -/
def Before (first second : Visit) : Prop :=
  first.site < second.site ∧ first.context.id < second.context.id

theorem visits_bounds (registry : Registry) (inputs : TraceInputs) (execution : Execution) :
    ∀ (current : Context) (index entered : Nat),
      ∀ node ∈ execution.visits registry inputs current index entered,
        index < node.site ∧ node.site ≤ index + execution.logs.length ∧
          entered ≤ node.context.id ∧
          node.context.id < entered + execution.entries registry inputs current.code := by
  induction execution with
  | stops => simp [visits]
  | halts log => simp [visits]
  | next log rest ih =>
      intro current index entered node member
      have bounds := ih current (index + 1) entered node member
      simp only [logs, entries, List.length_cons]
      omega
  | enters log inner rest innerIH restIH =>
      intro current index entered node member
      cases enters : innerCode? registry inputs current.code log with
      | none =>
          simp only [visits, enters] at member
          have bounds := restIH current (index + 1) entered node member
          simp only [logs, entries, enters, List.length_cons, List.length_append]
          omega
      | some code =>
          simp only [visits, enters, List.mem_cons, List.mem_append] at member
          simp only [logs, entries, enters, List.length_cons, List.length_append]
          rcases member with rfl | member | member
          · dsimp only
            omega
          · have bounds := innerIH _ _ _ node member
            dsimp only at bounds
            omega
          · have bounds := restIH _ _ _ node member
            omega

theorem visits_ordered (registry : Registry) (inputs : TraceInputs) (execution : Execution) :
    ∀ (current : Context) (index entered : Nat),
      (execution.visits registry inputs current index entered).Pairwise Before := by
  induction execution with
  | stops => simp [visits]
  | halts log => simp [visits]
  | next log rest ih => exact fun current index entered => ih current (index + 1) entered
  | enters log inner rest innerIH restIH =>
      intro current index entered
      cases enters : innerCode? registry inputs current.code log with
      | none => simpa [visits, enters] using restIH current (index + 1) entered
      | some code =>
          simp only [visits, enters, List.pairwise_cons, List.mem_append, List.pairwise_append]
          refine ⟨?_, innerIH _ _ _, restIH _ _ _, ?_⟩
          · intro node member
            rcases member with member | member
            · have bounds := visits_bounds registry inputs inner _ _ _ node member
              unfold Before
              dsimp only
              omega
            · have bounds := visits_bounds registry inputs rest _ _ _ node member
              unfold Before
              dsimp only
              omega
          · intro node member other later
            have bounds := visits_bounds registry inputs inner _ _ _ node member
            have laterBounds := visits_bounds registry inputs rest _ _ _ other later
            unfold Before
            dsimp only at bounds
            omega

/-- The number of the context of the node that is entered at a site. -/
def numberOf (nodes : List Visit) (site : Nat) : Nat :=
  ((nodes.find? fun node => node.site == site).map fun node => node.context.id).getD 0

theorem numberOf_site {nodes : List Visit} (ordered : nodes.Pairwise Before) {node : Visit}
    (member : node ∈ nodes) : numberOf nodes node.site = node.context.id := by
  induction nodes with
  | nil => cases member
  | cons first rest ih =>
      obtain ⟨earlier, ordered⟩ := List.pairwise_cons.mp ordered
      rcases List.mem_cons.mp member with rfl | member
      · simp [numberOf]
      · have apart : first.site ≠ node.site := Nat.ne_of_lt (earlier node member).1
        simpa [numberOf, apart] using ih ordered member

theorem eq_of_id {nodes : List Visit} (ordered : nodes.Pairwise Before) {first second : Visit}
    (left : first ∈ nodes) (right : second ∈ nodes)
    (same : first.context.id = second.context.id) : first = second := by
  have distinct : (nodes.map fun node => node.context.id).Nodup := by
    refine List.pairwise_map.mpr (ordered.imp ?_)
    intro node other before
    exact Nat.ne_of_lt before.2
  exact List.inj_on_of_nodup_map distinct left right same

end Execution

/-! ### Transactions -/

/-- Whether a transaction runs a code on the storage of an account. -/
def TraceInputs.Runs (inputs : TraceInputs) (registry : Registry) (code : BytecodeId)
    (address : ContextAddress) : Prop :=
  match inputs.transaction.target? with
  | none =>
      address = .creation 0 ∧
        registry.identify (Text.utf8 (Hex.encode0x inputs.transaction.input)) = .ok code
  | some target =>
      address = .deployed target ∧
        ∃ text, Alignment.codeOf? inputs target = some text ∧ registry.identify text = .ok code

namespace Alignment

theorem start_eq {registry : Registry} {inputs : TraceInputs} {code : BytecodeId}
    {address : ContextAddress} (runs : inputs.Runs registry code address) (depth : Nat) :
    start registry inputs depth = .ok (empty.enter code address depth) ∧
      code ∈ registry.codes := by
  unfold TraceInputs.Runs at runs
  cases target : inputs.transaction.target? with
  | none =>
      simp only [target] at runs
      obtain ⟨rfl, identified⟩ := runs
      refine ⟨?_, registry.mem_codes_of_identify identified⟩
      simp [start, target, identified, pure, Except.pure]
  | some account =>
      simp only [target] at runs
      obtain ⟨rfl, text, found, identified⟩ := runs
      refine ⟨?_, registry.mem_codes_of_identify identified⟩
      simp [start, target, found, identified, pure, Except.pure]

end Alignment

namespace Execution

theorem head?_depth {registry : Registry} {inputs : TraceInputs} {code : BytecodeId} {depth : Nat}
    {execution : Execution} (wellFormed : execution.WellFormed registry inputs code depth)
    (halts : execution.Halts) : (execution.logs.head?.map StructLog.depth).getD 1 = depth := by
  cases execution with
  | stops => exact halts.elim
  | halts log => exact wellFormed.1
  | next log rest => exact wellFormed.1
  | enters log inner rest => exact wellFormed.1

/-- The root of a tree. -/
def root (code : BytecodeId) (address : ContextAddress) (depth : Nat) : Visit :=
  ⟨0, 0, code, address, depth⟩

/-- The logs of the tree of a transaction, with the nodes that execute them. -/
def located (registry : Registry) (inputs : TraceInputs) (code : BytecodeId)
    (address : ContextAddress) (depth : Nat) (execution : Execution) : List Located :=
  execution.executed registry inputs (root code address depth) [] 0 1

/-- The trace of a tree whose code is known is aligned, log by log. -/
theorem ofInputs_located {registry : Registry} {inputs : TraceInputs} {code : BytecodeId}
    {address : ContextAddress} {depth : Nat} {execution : Execution}
    (runs : inputs.Runs registry code address)
    (wellFormed : execution.WellFormed registry inputs code depth) (halts : execution.Halts)
    (trace : inputs.trace.logs = execution.logs) :
    ∃ alignment, Alignment.ofInputs registry inputs = .ok alignment ∧
      alignment.addresses.toList =
        (execution.located registry inputs code address depth).map
          (fun located => located.visit.context.address) ∧
      alignment.records.toList =
        (execution.located registry inputs code address depth).filterMap
          (Located.record? registry) := by
  obtain ⟨started, known⟩ := Alignment.start_eq runs depth
  have within : Alignment.Within (Alignment.empty.enter code address depth) (depth + 1)
      [root code address depth] := ⟨[], rfl, by simp⟩
  obtain ⟨after, run, extension, _, left⟩ := Alignment.foldlM_logs registry inputs execution
    (root code address depth) [] 0 (Alignment.empty.enter code address depth) within known
    wellFormed
  refine ⟨after, ?_, extension.addresses, extension.records⟩
  have finished : after.contexts = [] := left halts
  unfold Alignment.ofInputs
  dsimp only
  rw [trace, head?_depth wellFormed halts, started, ok_bind, run, ok_bind]
  simp [finished, pure, Except.pure]

/-- Every log is attributed to the storage of the node that executes it, and every record tells the
path to that node, in numbers that are different for different nodes. -/
theorem attribution (registry : Registry) (inputs : TraceInputs) (code : BytecodeId)
    (address : ContextAddress) (depth : Nat) (execution : Execution)
    (runs : inputs.Runs registry code address)
    (wellFormed : execution.WellFormed registry inputs code depth) (halts : execution.Halts)
    (trace : inputs.trace.logs = execution.logs) :
    let executed := execution.located registry inputs code address depth
    executed.map (fun located => (located.log, located.index)) = inputs.trace.logs.zipIdx ∧
      ∃ alignment, Alignment.ofInputs registry inputs = .ok alignment ∧
        alignment.addresses.toList = executed.map (fun located => located.visit.context.address) ∧
        ∃ number : Nat → Nat,
          Set.InjOn number
            { site | ∃ located ∈ executed, ∃ visit ∈ located.path, visit.site = site } ∧
          ∀ record ∈ alignment.records, ∃ located ∈ executed,
            located.index = record.index ∧ located.log = record.log ∧
              record.active = located.path.map fun visit => number visit.site := by
  intro executed
  obtain ⟨alignment, aligned, addresses, records⟩ :=
    ofInputs_located runs wellFormed halts trace
  let nodes := root code address depth ::
    execution.visits registry inputs (root code address depth).context 0 1
  have ordered : nodes.Pairwise Before := by
    refine List.pairwise_cons.mpr ⟨?_, visits_ordered registry inputs execution _ 0 1⟩
    intro node member
    have bounds := visits_bounds registry inputs execution _ 0 1 node member
    exact ⟨bounds.1, bounds.2.2.1⟩
  have known : ∀ located ∈ executed, ∀ visit ∈ located.path, visit ∈ nodes := by
    intro located member visit step
    have := executed_visits registry inputs execution (root code address depth) [] 0 1 located
      member visit step
    simpa [nodes] using this
  refine ⟨by rw [trace]; exact executed_logs registry inputs execution _ [] 0 1 wellFormed,
    alignment, aligned, addresses, numberOf nodes, ?_, ?_⟩
  · rintro _ ⟨first, firstIn, left, leftStep, rfl⟩ _ ⟨second, secondIn, right, rightStep, rfl⟩ same
    have leftNode := known first firstIn left leftStep
    have rightNode := known second secondIn right rightStep
    rw [numberOf_site ordered leftNode, numberOf_site ordered rightNode] at same
    rw [eq_of_id ordered leftNode rightNode same]
  · intro record member
    rw [← Array.mem_toList_iff, records] at member
    obtain ⟨located, within, made⟩ := List.mem_filterMap.mp member
    obtain ⟨found, _, rfl⟩ := Option.map_eq_some_iff.mp made
    refine ⟨located, within, rfl, rfl, ?_⟩
    apply List.map_congr_left
    intro visit step
    exact (numberOf_site ordered (known located within visit step)).symm

end Execution

namespace Sample

/-! A contract with one function, whose instructions stand for its entry, a statement, an internal
call, its exit, and a message call. -/

def node (id : NodeId) (tag : String) (children : List NodeId) : Node where
  id
  tag
  src := ""
  attributes := [("name", .string "count")]
  children := [("nodes", children)]

def ast : Ast :=
  ((Ast.empty.put (node 1 "FunctionDefinition" [2, 3])).put (node 2 "Assignment" [])).put
    (node 3 "FunctionCall" [])

def mapped (pc : Nat) (node : NodeId) (jump : JumpType) : MappedInstruction where
  instruction := ⟨pc, pc, 0⟩
  location := ⟨0, 0, 0, jump⟩
  node
  file := "Counter.sol"
  range := default

def creation : LinkedCode where
  isCreation := true
  text := []
  mapped := []

def runtime : LinkedCode where
  isCreation := false
  text := [0x35, 0x62, 0x35, 0x35, 0x35, 0x36, 0x35, 0x62, 0x66, 0x31]
  mapped := [mapped 0 1 .regular, mapped 1 2 .regular, mapped 2 3 .into, mapped 3 1 .out,
    mapped 4 3 .regular]

def total : Assignment where
  var := ⟨11, "total", .storage, .elementary "uint256", 10, true, .mutable, none⟩
  location := .storage 0 0

def contract : Contract where
  name := "Counter"
  creation
  runtime
  node := 10
  ast
  userTypes := .empty
  allUserTypes := .empty
  globals := [total]
  slots := 1
  scopes := ∅
  abi := none
  creation_within := by simp [LinkedCode.Within, creation]
  runtime_within := by
    simp [LinkedCode.Within, runtime, mapped, ast, Ast.get?_put, node]

def registry : Registry :=
  .ofContracts [contract]

end Sample

theorem firstCoded?_single (contract : Contract) (empty : contract.creation.isEmpty = true)
    (full : contract.runtime.isEmpty = false) :
    firstCoded? [contract] contract.runtime.id = some (contract, contract.runtime) := by
  simp [firstCoded?, codesOf, empty, full]

/-- A contract without creation code is known by its runtime code. -/
theorem Registry.single_codes (contract : Contract) (empty : contract.creation.isEmpty = true)
    (full : contract.runtime.isEmpty = false) :
    (Registry.ofContracts [contract]).codes[contract.runtime.id]? =
      some (contract.name, contract.runtime.isCreation) := by
  rw [ofContracts_codes, firstCoded?_single contract empty full]
  rfl

theorem Registry.single_byCode (contract : Contract) (empty : contract.creation.isEmpty = true)
    (full : contract.runtime.isEmpty = false) (runtime : contract.runtime.isCreation = false) :
    (Registry.ofContracts [contract]).byCode contract.runtime.id =
      .ok (contract, contract.runtime) := by
  refine (byCode_ofContracts _ _ _ _).mpr
    ⟨contract, contract.runtime, firstCoded?_single contract empty full, by simp [lastNamed?], ?_⟩
  rw [runtime]
  rfl

theorem Registry.identify_exact (registry : Registry) (text : List UInt8)
    (known : BytecodeId.ofText text ∈ registry.codes) :
    registry.identify text = .ok (BytecodeId.ofText text) := by
  simp [identify, Std.ExtTreeMap.mem_iff_contains.mp known]

theorem Registry.single_identify (contract : Contract) (empty : contract.creation.isEmpty = true)
    (full : contract.runtime.isEmpty = false) :
    (Registry.ofContracts [contract]).identify contract.runtime.text = .ok contract.runtime.id := by
  have known := single_codes contract empty full
  have member : contract.runtime.id ∈ (Registry.ofContracts [contract]).codes :=
    Std.ExtTreeMap.mem_iff_isSome_getElem?.mpr (Option.isSome_of_eq_some known)
  rw [contract.runtime.id_eq] at member ⊢
  exact identify_exact _ contract.runtime.text member

namespace Sample

theorem byCode : registry.byCode runtime.id = .ok (contract, runtime) :=
  Registry.single_byCode contract (by decide +kernel) (by decide +kernel) rfl

theorem identify : registry.identify runtime.text = .ok runtime.id :=
  Registry.single_identify contract (by decide +kernel) (by decide +kernel)

/-- The code runs at two accounts; any other account has none. -/
def inputs (logs : List StructLog) : TraceInputs where
  transaction := ⟨0, some 0x10, [], none⟩
  trace := ⟨false, logs⟩
  codes := (Std.ExtTreeMap.empty.insert 0x10 "5b55565bf1").insert 0x20 "5b55565bf1"

def log (op : String) (pc depth : Nat) (stack : List Word) : StructLog :=
  ⟨pc, op, depth, stack, [], ∅, none⟩

/-- A record of a contract's code in the context of the transaction. -/
def recordOf (owner : Contract) (index : Nat) (log : StructLog) (mapped : MappedInstruction)
    (node : Node) : Record :=
  ⟨index, log, owner, mapped, node, 0, .deployed 0x10, [0]⟩

theorem codeOf? (logs : List StructLog) (account : Address)
    (deployed : account = 0x10 ∨ account = 0x20) :
    Alignment.codeOf? (inputs logs) account = some runtime.text := by
  have text : Text.utf8 "5b55565bf1" = runtime.text := by rfl
  have full : (!(Bytecode.normalize runtime.text).isEmpty) = true := by decide +kernel
  have code : (inputs logs).codes[account]? = some "5b55565bf1" := by
    simp only [inputs, Std.ExtTreeMap.getElem?_insert]
    rcases deployed with rfl | rfl <;> simp
  rw [Alignment.codeOf?, code, Option.map_some, text]
  exact Option.filter_some_pos full

theorem called?_deployed (logs : List StructLog) {log : StructLog} {word : Word}
    (operand : log.peek? 1 = some word)
    (deployed : Address.ofWord word = 0x10 ∨ Address.ofWord word = 0x20) :
    Alignment.called? (inputs logs) log = some (Address.ofWord word, runtime.text) := by
  simp [Alignment.called?, operand, codeOf? logs _ deployed]

/-- A call of an account that has the code. -/
theorem innerCode? (logs : List StructLog) (log : StructLog) {word : Word}
    (isCall : log.isCall = true) (operand : log.peek? 1 = some word)
    (deployed : Address.ofWord word = 0x10 ∨ Address.ofWord word = 0x20) (code : BytecodeId) :
    Execution.innerCode? registry (inputs logs) code log = some runtime.id ∧
      Execution.Identified registry (inputs logs) code log :=
  Alignment.innerCode?_of_called isCall (called?_deployed logs operand deployed) identify code

theorem called?_nobody (logs : List StructLog) {log : StructLog}
    (operand : log.peek? 1 = some 0x30) : Alignment.called? (inputs logs) log = none := by
  have missing : Alignment.codeOf? (inputs logs) (Address.ofWord 0x30) = none := by
    simp only [Alignment.codeOf?, inputs, Std.ExtTreeMap.getElem?_insert]
    rfl
  simp only [Alignment.called?, operand, Option.bind_eq_bind, Option.bind_some, missing,
    Option.bind_none]

/-- A call of an account that has no code. -/
theorem noCode (logs : List StructLog) (log : StructLog) (isCall : log.isCall = true)
    (operand : log.peek? 1 = some 0x30) (code : BytecodeId) :
    Execution.innerCode? registry (inputs logs) code log = none ∧
      Execution.Identified registry (inputs logs) code log := by
  have called := called?_nobody logs operand
  exact ⟨by simp [Execution.innerCode?, isCall, called], Or.inl ⟨isCall, by simp [called]⟩⟩

theorem runs (logs : List StructLog) :
    (inputs logs).Runs registry runtime.id (.deployed 0x10) :=
  ⟨rfl, runtime.text, codeOf? logs 0x10 (Or.inl rfl), identify⟩

def call : StructLog := log "CALL" 4 1 [0x20, 0]

def delegate : StructLog := log "DELEGATECALL" 4 1 [0x20, 0]

def callNobody : StructLog := log "CALL" 4 1 [0x30, 0]

/-- A call that reverts, one that stops without a halting log, one of an account without code, and
the end. -/
def calls : Execution :=
  .next (log "JUMPDEST" 0 1 []) <|
  .enters call (.next (log "JUMPDEST" 0 2 []) (.halts (log "REVERT" 1 2 []))) <|
  .enters delegate (.next (log "SSTORE" 1 2 []) .stops) <|
  .enters callNobody .stops <|
  .halts (log "STOP" 1 1 [])

/-- Whether the two calls of the tree that enter code enter the given one. -/
structure CallsEnter (registry : Registry) (inputs : TraceInputs) (id : BytecodeId) : Prop where
  called : ∀ code, Execution.innerCode? registry inputs code call = some id ∧
    Execution.Identified registry inputs code call
  delegated : ∀ code, Execution.innerCode? registry inputs code delegate = some id ∧
    Execution.Identified registry inputs code delegate
  missed : ∀ code, Execution.innerCode? registry inputs code callNobody = none ∧
    Execution.Identified registry inputs code callNobody

theorem callsEnter (logs : List StructLog) : CallsEnter registry (inputs logs) runtime.id where
  called code := innerCode? logs call rfl (rfl : call.peek? 1 = some 0x20) (Or.inr rfl) code
  delegated code :=
    innerCode? logs delegate rfl (rfl : delegate.peek? 1 = some 0x20) (Or.inr rfl) code
  missed code := noCode logs callNobody rfl rfl code

theorem calls_wellFormed {known : Registry} {stable : TraceInputs} {id : BytecodeId}
    (enters : CallsEnter known stable id) : calls.WellFormed known stable id 1 := by
  obtain ⟨called, delegated, missed⟩ := enters
  refine ⟨rfl, rfl, rfl, rfl, rfl, rfl, (called _).2, ?_, rfl, rfl, (delegated _).2, ?_, rfl, rfl,
    (missed _).2, ?_, rfl, rfl⟩
  · rw [(called _).1]
    exact ⟨rfl, rfl, rfl, rfl, rfl, rfl⟩
  · rw [(delegated _).1]
    exact ⟨rfl, rfl, rfl, rfl, trivial⟩
  · rw [(missed _).1]

theorem calls_addresses {known : Registry} {stable : TraceInputs} {id : BytecodeId}
    (enters : CallsEnter known stable id) :
    (calls.located known stable id (.deployed 0x10) 1).map
        (fun located => located.visit.context.address) =
      [.deployed 0x10, .deployed 0x10, .deployed 0x20, .deployed 0x20, .deployed 0x10,
        .deployed 0x10, .deployed 0x10, .deployed 0x10] := by
  obtain ⟨called, delegated, missed⟩ := enters
  simp only [calls, Execution.located, Execution.executed, Execution.root, (called _).1,
    (delegated _).1, (missed _).1]
  rfl

end Sample

/-- Delegated calls run on the storage of the calling account, other ones on that of their own. -/
theorem attribution_calls :
    ∃ alignment, Alignment.ofInputs Sample.registry (Sample.inputs Sample.calls.logs) =
        .ok alignment ∧
      alignment.addresses.toList =
        [.deployed 0x10, .deployed 0x10, .deployed 0x20, .deployed 0x20, .deployed 0x10,
          .deployed 0x10, .deployed 0x10, .deployed 0x10] := by
  have enters := Sample.callsEnter Sample.calls.logs
  obtain ⟨_, alignment, aligned, addresses, _⟩ :=
    Execution.attribution Sample.registry (Sample.inputs Sample.calls.logs) Sample.runtime.id
      (.deployed 0x10) 1 Sample.calls (Sample.runs _) (Sample.calls_wellFormed enters) trivial rfl
  exact ⟨alignment, aligned, addresses.trans (Sample.calls_addresses enters)⟩

end SolTrace
