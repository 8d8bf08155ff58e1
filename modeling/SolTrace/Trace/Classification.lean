import SolTrace.Trace.Alignment
/-!
Classification: which records become steps. Function exits go before call sites, call sites before
function entries, and entries before statements. A function is entered once for each cause: the
start of the trace, a call site, or a creation.
-/
set_option autoImplicit false

namespace SolTrace

namespace Record

/-- Whether a record leaves a function, or all functions of its context. -/
def isExit (record : Record) : Bool :=
  record.log.op == "RETURN" ||
    (record.mapped.location.jump == .out && record.node.kind != .contractDefinition &&
      record.function?.isSome)

def isCallSite (record : Record) : Bool :=
  (record.mapped.location.jump == .into && record.node.kind == .functionCall) ||
    record.log.isCall

/-- Whether a record is the last one on a function's definition before its body. -/
def isEntry (record : Record) (next : Option Record) : Bool :=
  record.node.kind == .functionDefinition &&
    next.any fun next => next.node.kind != .functionDefinition

/-- Whether a record starts a statement. Conditions count where they are decided. -/
def isStatement (record : Record) (previous : Option Record) : Bool :=
  match record.node.kind with
  | .assignment | .variableDeclarationStatement | .returnStatement =>
      previous.all fun previous => previous.node.id != record.node.id
  | .ifStatement | .forStatement | .whileStatement | .doWhileStatement => record.log.op == "JUMPI"
  | _ => false

end Record

namespace Classification

/-- The step that a record becomes. `armed` tells whether a cause for an entry is still open. -/
def kindOf (previous next : Option Record) (armed : Bool) (record : Record) : Option StepKind :=
  if record.isExit then some .functionOut
  else if record.isCallSite then some .jump
  else if armed && record.isEntry next then some .functionIn
  else if record.isStatement previous then some .line
  else none

/-- Whether a cause for an entry is open after a record that became a step. -/
def armedAfter (armed : Bool) (record : Record) (kind : Option StepKind) : Bool :=
  record.log.isCreate || kind == some .jump || (armed && kind != some .functionIn)

def kindsFrom (previous : Option Record) (armed : Bool) :
    List Record → List (Record × List StepKind)
  | [] => []
  | record :: rest =>
      let kind := kindOf previous rest.head? armed record
      (record, kind.toList) :: kindsFrom (some record) (armedAfter armed record kind) rest

/-- Enters the first function, which may have been entered before the first record. -/
def enterFirst : List (Record × List StepKind) → List (Record × List StepKind)
  | [] => []
  | (record, []) :: rest => (record, []) :: enterFirst rest
  | (record, kind :: kinds) :: rest =>
      if kind ≠ .functionIn ∧ record.function?.isSome then
        (record, .functionIn :: kind :: kinds) :: rest
      else (record, kind :: kinds) :: rest

/-- All records with the steps that they become. -/
def ofRecords (records : List Record) : List (Record × List StepKind) :=
  enterFirst (kindsFrom none true records)

end Classification

end SolTrace
