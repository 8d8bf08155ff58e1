import SolTrace.Trace.Alignment
/-!
Call trees: what a transaction executes, with the message calls and creations in it, and the node
of the tree that executes each log.
-/
set_option autoImplicit false

namespace SolTrace

/-- What code executes from some point on, until its context is left. -/
inductive Execution
  /-- Nothing. The next log, if there is one, is shallower. -/
  | stops
  /-- A log that ends the context, by a halting instruction or by an error. -/
  | halts (log : StructLog)
  | next (log : StructLog) (rest : Execution)
  /-- A message call or a creation, with what the code that it enters executes. -/
  | enters (log : StructLog) (inner rest : Execution)

/-- The mapped instruction of a code at a position. -/
def instructionAt? (registry : Registry) (code : BytecodeId) (pc : Nat) :
    Option (Contract × MappedInstruction × Node) := do
  let (contract, linked) ← (registry.byCode code).toOption
  let mapped ← linked.at? pc
  let node ← contract.ast.get? mapped.node
  return (contract, mapped, node)

namespace Execution

/-- The logs of a tree in the order of their execution. -/
def logs : Execution → List StructLog
  | .stops => []
  | .halts log => [log]
  | .next log rest => log :: rest.logs
  | .enters log inner rest => log :: (inner.logs ++ rest.logs)

/-- Whether the outermost code ends with a halting log. -/
def Halts : Execution → Prop
  | .stops => False
  | .halts _ => True
  | .next _ rest => rest.Halts
  | .enters _ _ rest => rest.Halts

/-- The code that a message call or a creation enters. Accounts without code enter none. -/
def innerCode? (registry : Registry) (inputs : TraceInputs) (code : BytecodeId) (log : StructLog) :
    Option BytecodeId :=
  if log.isCall then
    (Alignment.called? inputs log).bind fun called => (registry.identify called.2).toOption
  else
    (Alignment.createdCode registry log
      ((instructionAt? registry code log.pc).map fun found => (found.1.ast, found.2.2))).toOption

/-- The account whose storage the code of a message call runs on. -/
def calleeAddress (current : ContextAddress) (log : StructLog) : ContextAddress :=
  match log.op with
  | "CALL" | "STATICCALL" => .deployed (Address.ofWord ((log.peek? 1).getD 0))
  | _ => current

/-- The account whose storage the entered code runs on. -/
def innerAddress (current : ContextAddress) (index : Nat) (log : StructLog) : ContextAddress :=
  if log.isCreate then .creation index else calleeAddress current log

/-- Whether the code that a message call or a creation enters is known, if there is any. -/
def Identified (registry : Registry) (inputs : TraceInputs) (code : BytecodeId) (log : StructLog) :
    Prop :=
  (log.isCall = true ∧ ∀ called, Alignment.called? inputs log = some called →
      ∃ inner, registry.identify called.2 = .ok inner) ∨
    (log.isCreate = true ∧ ∃ inner, innerCode? registry inputs code log = some inner ∧
      inner ∈ registry.codes)

/-- Whether a tree is one of code at a depth: logs have the depth of the code that executes them,
and only instructions that enter code are followed by its execution. -/
def WellFormed (registry : Registry) (inputs : TraceInputs) : BytecodeId → Nat → Execution → Prop
  | _, _, .stops => True
  | _, depth, .halts log => log.depth = depth ∧ log.isHalt = true
  | code, depth, .next log rest =>
      log.depth = depth ∧ log.isHalt = false ∧ log.isCall = false ∧ log.isCreate = false ∧
        rest.WellFormed registry inputs code depth
  | code, depth, .enters log inner rest =>
      log.depth = depth ∧ log.isHalt = false ∧ Identified registry inputs code log ∧
        (match innerCode? registry inputs code log with
          | none => inner = .stops
          | some innerCode => inner.WellFormed registry inputs innerCode (depth + 1)) ∧
        rest.WellFormed registry inputs code depth

/-- How many contexts a tree of a code enters. -/
def entries (registry : Registry) (inputs : TraceInputs) : BytecodeId → Execution → Nat
  | _, .stops => 0
  | _, .halts _ => 0
  | code, .next _ rest => rest.entries registry inputs code
  | code, .enters log inner rest =>
      match innerCode? registry inputs code log with
      | none => rest.entries registry inputs code
      | some innerCode =>
          1 + inner.entries registry inputs innerCode + rest.entries registry inputs code

end Execution

/-- A node of a tree: the context of a code, with the instruction that enters it. -/
structure Visit where
  /-- The position of the entering log in the trace, counted from one; zero for the code of the
  transaction itself. -/
  site : Nat
  context : Context

/-- A log with the node of the tree that executes it. -/
structure Located where
  index : Nat
  log : StructLog
  visit : Visit
  /-- The nodes above, innermost first. -/
  outer : List Visit

namespace Located

/-- The nodes from the root to the one that executes the log. -/
def path (located : Located) : List Visit :=
  (located.visit :: located.outer).reverse

/-- The record of the log if its instruction is mapped to a node. -/
def recordOn (located : Located) (contract : Contract) (mapped : MappedInstruction) (node : Node) :
    Record where
  index := located.index
  log := located.log
  contract
  mapped
  node
  context := located.visit.context.id
  address := located.visit.context.address
  active := located.path.map fun visit => visit.context.id

/-- The record of the log, if its instruction is mapped. -/
def record? (registry : Registry) (located : Located) : Option Record :=
  (instructionAt? registry located.visit.context.code located.log.pc).map
    fun (contract, mapped, node) => located.recordOn contract mapped node

end Located

namespace Execution

/-- The logs of a tree with the nodes that execute them. The tree is executed at a node below
others, from a log of the trace on, after a number of entered contexts. -/
def executed (registry : Registry) (inputs : TraceInputs) :
    Visit → List Visit → Nat → Nat → Execution → List Located
  | _, _, _, _, .stops => []
  | visit, outer, index, _, .halts log => [⟨index, log, visit, outer⟩]
  | visit, outer, index, entered, .next log rest =>
      ⟨index, log, visit, outer⟩ ::
        rest.executed registry inputs visit outer (index + 1) entered
  | visit, outer, index, entered, .enters log inner rest =>
      let current := visit.context
      ⟨index, log, visit, outer⟩ ::
        match innerCode? registry inputs current.code log with
        | none => rest.executed registry inputs visit outer (index + 1) entered
        | some code =>
            let entering : Visit :=
              ⟨index + 1, entered, code, innerAddress current.address index log, current.depth + 1⟩
            inner.executed registry inputs entering (visit :: outer) (index + 1) (entered + 1) ++
              rest.executed registry inputs visit outer (index + 1 + inner.logs.length)
                (entered + 1 + inner.entries registry inputs code)

end Execution

end SolTrace
