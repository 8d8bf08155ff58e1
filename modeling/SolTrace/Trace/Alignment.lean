import SolTrace.Contract.Registry
import SolTrace.Trace.Inputs
import SolTrace.Trace.Step
/-!
Alignment: finding the code that executes each struct log. Message calls and creations enter a
context, and a context is left by a halting instruction, or when a log has a smaller depth.
-/
set_option autoImplicit false

namespace SolTrace

/-- A frame of code execution. -/
structure Context where
  /-- The number of contexts of the trace that were entered before. -/
  id : Nat
  code : BytecodeId
  /-- The account whose storage the code runs on. -/
  address : ContextAddress
  /-- The depth of the logs that the context executes. -/
  depth : Nat
deriving Repr, DecidableEq

/-- A struct log whose instruction has a place in the source text. -/
structure Record where
  /-- The index of the struct log. -/
  index : Nat
  log : StructLog
  contract : Contract
  mapped : MappedInstruction
  node : Node
  /-- The number of the executing context. -/
  context : Nat
  address : ContextAddress
  /-- The numbers of the active contexts, outermost first. -/
  active : List Nat

namespace Record

/-- The definition of the function that the instruction belongs to. -/
def function? (record : Record) : Option Node :=
  record.contract.ast.enclosing? record.node.id .functionDefinition

end Record

structure Alignment where
  /-- The active contexts, innermost first. -/
  contexts : List Context
  /-- How many contexts have been entered. -/
  entered : Nat
  records : Array Record
  /-- The account whose storage each struct log runs on. -/
  addresses : Array ContextAddress

namespace Alignment

def empty : Alignment := ⟨[], 0, #[], #[]⟩

def enter (alignment : Alignment) (code : BytecodeId) (address : ContextAddress) (depth : Nat) :
    Alignment :=
  { alignment with
    contexts := ⟨alignment.entered, code, address, depth⟩ :: alignment.contexts
    entered := alignment.entered + 1 }

/-- Leaves the contexts that are deeper than a log. -/
def leaveDeeper (alignment : Alignment) (depth : Nat) : Alignment :=
  { alignment with contexts := alignment.contexts.dropWhile fun context => depth < context.depth }

/-- Leaves the innermost context. -/
def leave (alignment : Alignment) : Alignment :=
  { alignment with contexts := alignment.contexts.tail }

/-- The code of an account as text, if it has any. -/
def codeOf? (inputs : TraceInputs) (account : Address) : Option (List UInt8) :=
  (inputs.codes[account]?.map Text.utf8).filter fun code => !(Bytecode.normalize code).isEmpty

/-- The context of the transaction itself. -/
def start (registry : Registry) (inputs : TraceInputs) (depth : Nat) :
    Except Error Alignment := do
  let transaction := inputs.transaction
  match transaction.target? with
  | none =>
      let code ← registry.identify (Text.utf8 (Hex.encode0x transaction.input))
      return empty.enter code (.creation 0) depth
  | some target =>
      match codeOf? inputs target with
      | none => .error (.unresolvedTarget transaction.hash)
      | some text => return empty.enter (← registry.identify text) (.deployed target) depth

/-- The account whose storage a called code runs on. -/
def calledAddress (log : StructLog) (current : ContextAddress) (target : Address) :
    ContextAddress :=
  if log.op = "DELEGATECALL" ∨ log.op = "CALLCODE" then current else .deployed target

/-- The account that a message call calls and its code, if it has any. -/
def called? (inputs : TraceInputs) (log : StructLog) : Option (Address × List UInt8) := do
  let target := Address.ofWord (← log.peek? 1)
  return (target, ← codeOf? inputs target)

/-- Enters the context of a message call, unless the called account has no code. -/
def enterCall (registry : Registry) (inputs : TraceInputs) (alignment : Alignment)
    (log : StructLog) (current : Context) : Except Error Alignment :=
  match called? inputs log with
  | none => .ok alignment
  | some (target, text) => do
      let code ← registry.identify text
      return alignment.enter code (calledAddress log current.address target) (log.depth + 1)

/-- The name of the contract that the first creating expression below a node creates. -/
def createdContract? (ast : Ast) (node : Node) : Option String := do
  let expression ← (ast.walk node.id).find? fun node => node.kind == .newExpression
  let type ← ast.get? (← expression.child? "typeName")
  match type.typeText?.bind fun text => Elementary.after? "contract " text.toList with
  | some name => return String.ofList name
  | none => if type.name.isEmpty then none else some type.name

/-- The code that a creation runs: the part of memory that its operands tell, as far as there is
any. -/
def initCode (log : StructLog) : List UInt8 :=
  let operand (n : Nat) : Nat := min ((log.peek? n).getD 0).toNat Text.maxNat64
  let offset := operand 1
  log.memorySlice offset (min (operand 2) (log.memory.length - offset))

/-- The code that a creation runs. Code that is not known is told by the creating expression, if
the place of the instruction is known. -/
def createdCode (registry : Registry) (log : StructLog) (place : Option (Ast × Node)) :
    Except Error BytecodeId :=
  match registry.identify (Text.utf8 (Hex.encode0x (initCode log))) with
  | .ok code => .ok code
  | .error error =>
      match place.bind fun place => createdContract? place.1 place.2 with
      | none => .error error
      | some name => do return (← registry.get name).creation.id

/-- Enters the context of a creation. -/
def enterCreate (registry : Registry) (alignment : Alignment) (index : Nat) (log : StructLog)
    (record : Option Record) : Except Error Alignment := do
  let code ← createdCode registry log (record.map fun record => (record.contract.ast, record.node))
  return alignment.enter code (.creation index) (log.depth + 1)

/-- The record of a log that the innermost of the active contexts executes. -/
def record? (registry : Registry) (contexts : List Context) (current : Context) (index : Nat)
    (log : StructLog) : Except Error (Option Record) := do
  let (contract, code) ← registry.byCode current.code
  match code.at? log.pc with
  | none => return none
  | some mapped =>
      let node ← contract.ast.node mapped.node
      return some {
        index, log, contract, mapped, node
        context := current.id
        address := current.address
        active := (contexts.map Context.id).reverse }

/-- Attributes a log to the context that executes it. -/
def assign (alignment : Alignment) (current : Context) (record : Option Record) : Alignment :=
  { alignment with
    records := record.elim alignment.records alignment.records.push
    addresses := alignment.addresses.push current.address }

/-- Leaves or enters a context, as the instruction of a log does. -/
def follow (registry : Registry) (inputs : TraceInputs) (alignment : Alignment) (current : Context)
    (index : Nat) (log : StructLog) (record : Option Record) : Except Error Alignment :=
  if log.isHalt then .ok alignment.leave
  else if log.isCall then alignment.enterCall registry inputs log current
  else if log.isCreate then alignment.enterCreate registry index log record
  else .ok alignment

/-- Takes in one log. Logs after the last context has been left belong to nothing. -/
def addLog (registry : Registry) (inputs : TraceInputs) (before : Alignment)
    (entry : StructLog × Nat) : Except Error Alignment :=
  let (log, index) := entry
  let alignment := before.leaveDeeper log.depth
  match alignment.contexts with
  | [] => .ok alignment
  | current :: _ => do
      let record ← record? registry alignment.contexts current index log
      (alignment.assign current record).follow registry inputs current index log record

/-- Aligns the logs of a trace. All contexts have to be left at its end. -/
def ofInputs (registry : Registry) (inputs : TraceInputs) : Except Error Alignment := do
  let logs := inputs.trace.logs
  let started ← start registry inputs ((logs.head?.map StructLog.depth).getD 1)
  let alignment ← logs.zipIdx.foldlM (addLog registry inputs) started
  if alignment.contexts.isEmpty then return alignment
  else .error (.danglingContexts alignment.contexts.length)

end Alignment

end SolTrace
