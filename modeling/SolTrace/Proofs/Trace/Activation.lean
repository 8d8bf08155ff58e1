import SolTrace.Proofs.Trace.Attribution
import SolTrace.Trace.Reduction
/-!
Activation trees: what the functions of a transaction execute, with the internal calls and the
message calls in it, and the stack of functions that is active at each log.
-/
set_option autoImplicit false

namespace SolTrace.Activation

/-- How a function is entered: by instructions of its definition, of which only the last one is
followed by its body. -/
structure Entry where
  function : Node
  leading : List StructLog
  last : StructLog

/-- What an activation executes after its entry, or after some point of its body. -/
inductive Body
  /-- The jump out of the function. -/
  | exit (log : StructLog)
  /-- Nothing, as the context is reverted. -/
  | cut
  | plain (log : StructLog) (rest : Body)
  | internal (site : StructLog) (entry : Entry) (callee rest : Body)
  /-- A message call. The context executes some logs before its function is entered, and a halting
  one in the end. -/
  | message (site : StructLog) (before : List StructLog) (entry : Entry) (callee : Body)
      (halt : StructLog) (rest : Body)

/-- What a context executes that runs one activation. -/
structure Run where
  before : List StructLog
  entry : Entry
  body : Body
  halt : StructLog

/-! ### The trace -/

/-- Logs that only lead on to the next one. -/
def chain (logs : List StructLog) (rest : Execution) : Execution :=
  logs.foldr Execution.next rest

def Entry.execution (entry : Entry) (rest : Execution) : Execution :=
  chain entry.leading (.next entry.last rest)

/-- A body as a part of a call tree, with what its context executes after it. -/
def Body.execution : Body → Execution → Execution
  | .exit log, rest => .next log rest
  | .cut, rest => rest
  | .plain log body, rest => .next log (body.execution rest)
  | .internal site entry callee body, rest =>
      .next site (entry.execution (callee.execution (body.execution rest)))
  | .message site before entry callee halt body, rest =>
      .enters site (chain before (entry.execution (callee.execution (.halts halt))))
        (body.execution rest)

def Run.execution (run : Run) : Execution :=
  chain run.before (run.entry.execution (run.body.execution (.halts run.halt)))

/-! ### Well-formed trees -/

/-- Whether the activation ends with an exit. -/
def Body.Completes : Body → Prop
  | .exit _ => True
  | .cut => False
  | .plain _ rest => rest.Completes
  | .internal _ _ _ rest => rest.Completes
  | .message _ _ _ _ _ rest => rest.Completes

section

variable (registry : Registry) (inputs : TraceInputs)

/-- An instruction at a depth that neither halts nor enters another context. -/
structure Ordinary (depth : Nat) (log : StructLog) : Prop where
  depth : log.depth = depth
  isHalt : log.isHalt = false
  isCall : log.isCall = false
  isCreate : log.isCreate = false

/-- Whether the instruction of a log is mapped and satisfies a condition. -/
def Mapped (code : BytecodeId) (log : StructLog)
    (condition : Contract → JumpType → Node → Prop) : Prop :=
  ∃ contract mapped node, instructionAt? registry code log.pc = some (contract, mapped, node) ∧
    condition contract mapped.location.jump node

/-- Whether the instruction of a log satisfies a condition, if it is mapped. -/
def IfMapped (code : BytecodeId) (log : StructLog)
    (condition : Contract → JumpType → Node → Prop) : Prop :=
  ∀ contract mapped node, instructionAt? registry code log.pc = some (contract, mapped, node) →
    condition contract mapped.location.jump node

/-- Whether a variable declaration, if the node is one, has a type that is known. -/
def Resolvable (contract : Contract) (node : Node) : Prop :=
  node.kind = .variableDeclaration → ∃ var, contract.resolver.declared node = .ok var

structure Entry.WellFormed (code : BytecodeId) (depth : Nat) (entry : Entry) : Prop where
  leading : ∀ log ∈ entry.leading, Ordinary depth log ∧
    IfMapped registry code log fun _ jump node => jump = .regular ∧ node = entry.function
  ordinary : Ordinary depth entry.last
  last : Mapped registry code entry.last fun contract jump node =>
    jump = .regular ∧ node = entry.function ∧
      ∀ declaration ∈ contract.ast.signature entry.function,
        ∃ var, contract.resolver.declared declaration = .ok var
  kind : entry.function.kind = .functionDefinition

/-- Whether the first mapped instruction of a body is not one of a function definition. A body that
is cut at once goes on with the log that halts its context. -/
def Body.Leads (code : BytecodeId) (halt : StructLog) : Body → Prop
  | .exit _ => False
  | .cut => Mapped registry code halt fun _ _ node => node.kind ≠ .functionDefinition
  | .plain log rest =>
      (IfMapped registry code log fun _ _ node => node.kind ≠ .functionDefinition) ∧
        (instructionAt? registry code log.pc = none → rest.Leads code halt)
  | .internal _ _ _ _ => True
  | .message site _ _ _ _ _ =>
      Mapped registry code site fun _ _ node => node.kind ≠ .functionDefinition

/-- Whether a log precedes all functions of its context. -/
def Precedes (code : BytecodeId) (depth : Nat) (log : StructLog) : Prop :=
  Ordinary depth log ∧ IfMapped registry code log fun _ _ node => node.kind = .contractDefinition

/-- Whether a log halts a context after a body. Only a revert may leave functions unfinished. -/
structure Halting (code : BytecodeId) (depth : Nat) (body : Body) (halt : StructLog) : Prop where
  depth : halt.depth = depth
  op : halt.op = "STOP" ∨ halt.op = "RETURN" ∨ halt.op = "REVERT"
  complete : body.Completes ∨ halt.op = "REVERT"
  mapped : IfMapped registry code halt fun contract jump node =>
    jump = .regular ∧ Resolvable contract node

/-- Whether a body of a function is one of code at a depth that is halted by a log. -/
def Body.WellFormed (code : BytecodeId) (depth : Nat) (halt : StructLog) (function : Node) :
    Body → Prop
  | .exit log =>
      Ordinary depth log ∧
        Mapped registry code log fun _ jump node => jump = .out ∧ node = function
  | .cut => True
  | .plain log rest =>
      Ordinary depth log ∧
        (IfMapped registry code log fun contract jump node =>
          jump = .regular ∧ Resolvable contract node) ∧
        rest.WellFormed code depth halt function
  | .internal site entry callee rest =>
      Ordinary depth site ∧
        (Mapped registry code site fun _ jump node => jump = .into ∧ node.kind = .functionCall) ∧
        entry.WellFormed registry code depth ∧ callee.Leads registry code halt ∧
        callee.WellFormed code depth halt entry.function ∧
        (callee.Completes ∨ rest = .cut) ∧ rest.WellFormed code depth halt function
  | .message site before entry callee inner rest =>
      site.depth = depth ∧ site.isHalt = false ∧ site.isCall = true ∧
        (Mapped registry code site fun contract jump node =>
          jump ≠ .out ∧ Resolvable contract node) ∧
        (∃ innerCode, Execution.innerCode? registry inputs code site = some innerCode ∧
          (∀ log ∈ before, Precedes registry innerCode (depth + 1) log) ∧
          entry.WellFormed registry innerCode (depth + 1) ∧
          callee.Leads registry innerCode inner ∧
          callee.WellFormed innerCode (depth + 1) inner entry.function ∧
          Halting registry innerCode (depth + 1) callee inner) ∧
        rest.WellFormed code depth halt function

structure Run.WellFormed (code : BytecodeId) (depth : Nat) (run : Run) : Prop where
  before : ∀ log ∈ run.before, Precedes registry code depth log
  entry : run.entry.WellFormed registry code depth
  leads : run.body.Leads registry code run.halt
  body : run.body.WellFormed registry inputs code depth run.halt run.entry.function
  halting : Halting registry code depth run.body run.halt

/-! ### The call stack -/

/-- The functions that are active at a log, outermost first, and the step that the log becomes
besides statements. -/
structure Expected where
  calls : List CallFrame
  kind : Option StepKind

/-- A function that a code runs on the storage of an account. -/
def frameOf (code : BytecodeId) (address : ContextAddress) (function : Node) : CallFrame where
  address
  contract := ((registry.byCode code).toOption.map fun found => found.1.name).getD ""
  function := function.functionName

/-- The functions that a body leaves unfinished, outermost first. -/
def Body.unfinished (function : Node) : Body → List Node
  | .exit _ => []
  | .cut => [function]
  | .plain _ rest => rest.unfinished function
  | .internal _ entry callee rest =>
      rest.unfinished function ++ callee.unfinished entry.function
  | .message _ _ _ _ _ rest => rest.unfinished function

def Entry.expected (calls : List CallFrame) (entry : Entry) : List Expected :=
  entry.leading.map (fun _ => ⟨calls, none⟩) ++ [⟨calls, some .functionIn⟩]

/-- What is expected at the logs of a function's body, below the given calls. -/
def Body.expected (code : BytecodeId) (address : ContextAddress) (function : Node)
    (calls : List CallFrame) : Body → List Expected
  | .exit _ => [⟨calls ++ [frameOf registry code address function], some .functionOut⟩]
  | .cut => []
  | .plain _ rest =>
      ⟨calls ++ [frameOf registry code address function], none⟩ ::
        rest.expected code address function calls
  | .internal _ entry callee rest =>
      let active := calls ++ [frameOf registry code address function]
      ⟨active, some .jump⟩ ::
        (entry.expected (active ++ [frameOf registry code address entry.function]) ++
          (callee.expected code address entry.function active ++
            rest.expected code address function calls))
  | .message site before entry callee _ rest =>
      let active := calls ++ [frameOf registry code address function]
      let inner := (Execution.innerCode? registry inputs code site).getD 0
      let callee' := Execution.calleeAddress address site
      ⟨active, some .jump⟩ ::
        (before.map (fun _ => ⟨active, none⟩) ++
          (entry.expected (active ++ [frameOf registry inner callee' entry.function]) ++
            (callee.expected inner callee' entry.function active ++
              (⟨active ++ (callee.unfinished entry.function).map
                (frameOf registry inner callee'), none⟩ ::
                rest.expected code address function calls))))

/-- What is expected at the logs of a transaction. -/
def Run.expected (code : BytecodeId) (address : ContextAddress) (run : Run) : List Expected :=
  run.before.map (fun _ => ⟨[], none⟩) ++
    (run.entry.expected [frameOf registry code address run.entry.function] ++
      (run.body.expected registry inputs code address run.entry.function [] ++
        [⟨(run.body.unfinished run.entry.function).map (frameOf registry code address), none⟩]))

end

end SolTrace.Activation
