import SolTrace.Trace.Classification
import SolTrace.Trace.Scopes
/-!
Reduction: replaying the records of a trace to rebuild, at each step, the stack of active functions
and the variables in scope.
-/
set_option autoImplicit false

namespace SolTrace

/-- An active function, with what its exit brings back. -/
structure Frame where
  call : CallFrame
  /-- The number of the context that the function runs in. -/
  context : Nat
  /-- The nodes of the function's definition. -/
  nodes : List NodeId
  /-- The bindings of an activation of the same function that was set aside. -/
  shadowed : List (NodeId × Bindings)

structure Reduction where
  /-- The active functions, innermost first. -/
  frames : List Frame
  scopes : Scopes
  /-- What has been reported of each account's storage. -/
  storage : List (ContextAddress × Storage)
  /-- How many logs' storage has been taken in. -/
  merged : Nat
  /-- The storage that the other logs report, with the account of each. -/
  reported : List (ContextAddress × Storage)
  /-- The account whose state variables were bound last. -/
  bound : Option ContextAddress
  steps : Array Step

namespace Reduction

/-! ### Storage -/

def storageOf (known : List (ContextAddress × Storage)) (address : ContextAddress) : Storage :=
  (known.lookup address).getD ∅

/-- Adds what a log reports; reported slots replace what was known of them. -/
def addReport (report : Storage) (storage : Storage) : Storage :=
  report.foldl (fun storage slot value => storage.insert slot value) storage

def addStorage (known : List (ContextAddress × Storage)) (address : ContextAddress)
    (report : Storage) : List (ContextAddress × Storage) :=
  match known with
  | [] => [(address, addReport report ∅)]
  | (other, storage) :: rest =>
      if other = address then (other, addReport report storage) :: rest
      else (other, storage) :: addStorage rest address report

/-- Takes in the storage of all logs up to an index. -/
def mergeThrough (state : Reduction) (index : Nat) : Reduction :=
  let count := index + 1 - state.merged
  { state with
    storage := (state.reported.take count).foldl
      (fun known report => addStorage known report.1 report.2) state.storage
    merged := state.merged + count
    reported := state.reported.drop count }

/-! ### Steps -/

/-- The scopes around a node: each node above it with the scopes that the node names. -/
def scopesAround (record : Record) : List NodeId :=
  (record.contract.ast.ancestors record.node.id).flatMap fun ancestor =>
    ancestor :: (record.contract.scopes[ancestor]?).getD []

/-- The variables that a step lists. Return values without a name are only listed where a function
returns. -/
def visible (state : Reduction) (record : Record) (kind : StepKind) : List Assignment :=
  if kind = .functionOut then []
  else (state.scopes.collect (scopesAround record)).filter fun assignment =>
    record.node.kind == .returnStatement || !assignment.var.isReturn

def stepAt (state : Reduction) (record : Record) (kind : StepKind) : Step where
  kind
  calls := (state.frames.map Frame.call).reverse
  assignments := state.visible record kind
  file := record.mapped.file
  range := record.mapped.range
  node := record.node.id
  address := record.address
  snapshot := ⟨record.log.stack, record.log.memory, storageOf state.storage record.address⟩
  index := record.index

def emit (state : Reduction) (record : Record) (kind : StepKind) : Reduction :=
  { state with steps := state.steps.push (state.stepAt record kind) }

/-! ### Functions -/

/-- Where a local variable is whose word stands at a position of the stack. -/
def localAssignment (var : Variable) (position : Nat) : Assignment :=
  ⟨var, if var.location = .memory then .memory position else .stack position⟩

/-- Binds the state variables of the executing contract, each in the contract and in the contract
that declares it, unless those of the same account were bound last. -/
def bindGlobals (state : Reduction) (record : Record) : Reduction :=
  if state.bound = some record.address then state
  else
    { state with
      scopes := record.contract.globals.foldl (fun scopes global =>
        (scopes.bind record.contract.node global).bind global.var.scope global) state.scopes
      bound := some record.address }

/-- A variable that has no name goes by its position on the stack. -/
def withName (var : Variable) (position : Nat) : Variable :=
  if var.name.isEmpty then { var with name := "<" ++ toString position ++ ">" } else var

/-- The declarations of a function's parameters and return values with their stack positions. The
last declaration is on top of the stack. -/
def declarations (record : Record) (function : Node) : List (Node × Nat) :=
  (record.contract.ast.signature function).reverse.zip
    (List.range record.log.stack.length).reverse

def bindDeclarations (record : Record) (function : Node) (scopes : Scopes) :
    Except Error Scopes :=
  (declarations record function).foldlM (fun scopes (node, position) => do
    let var ← record.contract.resolver.declared node
    return scopes.bind function.id (localAssignment (withName var position) position)) scopes

/-- Enters a function: sets the bindings in its definition aside and binds its parameters. -/
def enterFunction (state : Reduction) (record : Record) (function : Node) :
    Except Error Reduction := do
  let state := state.bindGlobals record
  let nodes := (record.contract.ast.walk function.id).map Node.id
  let frame : Frame := {
    call := ⟨record.address, record.contract.name, function.functionName⟩
    context := record.context
    nodes
    shadowed := state.scopes.pick nodes }
  let scopes ← bindDeclarations record function (state.scopes.clear nodes)
  return { state with frames := frame :: state.frames, scopes }

/-- Leaves the innermost function and brings back the bindings that it had set aside. -/
def leaveFunction (state : Reduction) : Reduction :=
  match state.frames with
  | [] => state
  | frame :: frames =>
      { state with frames, scopes := (state.scopes.clear frame.nodes).restore frame.shadowed }

/-- Leaves functions as long as the innermost one satisfies a condition, and does `before` to the
state before each. -/
def leaveWhile (condition : Frame → Bool) (before : Reduction → Reduction) :
    List Frame → Reduction → Reduction
  | [], state => state
  | frame :: frames, state =>
      if condition frame then leaveWhile condition before frames (before state).leaveFunction
      else state

/-- Leaves the functions whose context was left without an exit. -/
def dropUnwound (state : Reduction) (record : Record) : Reduction :=
  leaveWhile (fun frame => !record.active.contains frame.context) id state.frames state

/-- Binds a local variable when its declaration is reached for the first time. -/
def registerLocal (state : Reduction) (record : Record) : Except Error Reduction :=
  let node := record.node
  if node.kind ≠ .variableDeclaration ∨ node.flag "stateVariable" then .ok state
  else
    match node.scope?.orElse fun _ => record.contract.ast.parent? node.id with
    | none => .ok state
    | some scope =>
        if (state.scopes.bindings scope).contains node.id then .ok state
        else do
          let var ← record.contract.resolver.declared node
          return { state with
            scopes := state.scopes.bind scope (localAssignment var record.log.stack.length) }

/-! ### Replay -/

/-- Leaves the innermost function, which has to be the one that the record belongs to. -/
def exitFunction (state : Reduction) (record : Record) : Except Error Reduction :=
  match state.frames with
  | [] => .error .emptyCallStack
  | frame :: _ =>
      let found := (record.function?.map Node.functionName).getD ""
      if frame.call.function = found then .ok (state.emit record .functionOut).leaveFunction
      else .error (.exitMismatch frame.call.function found)

def takeStep (state : Reduction) (record : Record) : StepKind → Except Error Reduction
  | .functionIn =>
      match record.function? with
      | none => .ok state
      | some function => do
          return (← state.enterFunction record function).emit record .functionIn
  | .functionOut =>
      if record.log.op = "RETURN" then
        .ok (leaveWhile (fun frame => frame.context == record.context)
          (fun state => state.emit record .functionOut) state.frames state)
      else state.exitFunction record
  | kind => .ok (state.emit record kind)

def replayStep (record : Record) (state : Reduction) (kind : StepKind) : Except Error Reduction :=
  ((state.mergeThrough record.index).dropUnwound record).takeStep record kind

/-- Takes in one record and the steps that it becomes. -/
def replay (state : Reduction) (entry : Record × List StepKind) : Except Error Reduction := do
  entry.2.foldlM (replayStep entry.1) (← state.registerLocal entry.1)

def start (inputs : TraceInputs) (alignment : Alignment) : Reduction where
  frames := []
  scopes := ∅
  storage := []
  merged := 0
  reported := alignment.addresses.toList.zip (inputs.trace.logs.map StructLog.storage)
  bound := none
  steps := #[]

end Reduction

/-- The steps of a trace. -/
def reduce (registry : Registry) (inputs : TraceInputs) : Except Error (List Step) := do
  let alignment ← Alignment.ofInputs registry inputs
  let reduced ← (Classification.ofRecords alignment.records.toList).foldlM Reduction.replay
    (Reduction.start inputs alignment)
  return reduced.steps.toList

end SolTrace
