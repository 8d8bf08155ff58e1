import SolTrace.Address
import SolTrace.Layout
import SolTrace.Source
import SolTrace.Trace.StructLog
/-!
Steps: what a trace is reduced to. A step is a point of the source text that was reached, with the
functions and variables that are active there and the state of the machine.
-/
set_option autoImplicit false

namespace SolTrace

inductive StepKind
  | functionIn
  | functionOut
  /-- A call site, of an internal call or of a message call. -/
  | jump
  /-- A statement. -/
  | line
deriving Repr, DecidableEq

def StepKind.name : StepKind → String
  | .functionIn => "FunctionIn"
  | .functionOut => "FunctionOut"
  | .jump => "Jump"
  | .line => "Line"

/-- The account whose storage a code runs on. The address of a contract is not known while it is
created; it goes by the index of the struct log that creates it. -/
inductive ContextAddress
  | deployed (address : Address)
  | creation (index : Nat)
deriving Repr, DecidableEq

namespace ContextAddress

def address? : ContextAddress → Option Address
  | .deployed address => some address
  | .creation _ => none

def text : ContextAddress → String
  | .deployed address => address.checksum
  | .creation index => "(contract creation, step " ++ toString index ++ ")"

end ContextAddress

/-- An active function. -/
structure CallFrame where
  address : ContextAddress
  contract : String
  function : String
deriving Repr, DecidableEq

namespace CallFrame

/-- The function under its contract's name. -/
def text (frame : CallFrame) : String :=
  frame.contract ++ "." ++ frame.function

end CallFrame

/-- The state of the machine at a step. The storage is all that has been reported so far for the
storage address. -/
structure Snapshot where
  stack : List Word
  memory : List UInt8
  storage : Storage

namespace Snapshot

def empty : Snapshot := ⟨[], [], ∅⟩

end Snapshot

structure Step where
  kind : StepKind
  /-- The active functions, outermost first. -/
  calls : List CallFrame
  assignments : List Assignment
  file : String
  range : SourceRange
  node : NodeId
  /-- The account whose storage the snapshot shows. -/
  address : ContextAddress
  snapshot : Snapshot
  /-- The index of the struct log that the step was taken at. -/
  index : Nat

namespace Step

def line? (step : Step) : Option Nat :=
  step.range.startLine?

end Step

end SolTrace
