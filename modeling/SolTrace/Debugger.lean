import SolTrace.Checkpoint
import SolTrace.Session
import SolTrace.Trace.Reduction
/-!
The debugger: known contracts and a chain whose transactions are debugged.
-/
set_option autoImplicit false

namespace SolTrace

structure Debugger where
  provider : Provider
  registry : Registry
  sources : Sources
  /-- Whether the chain is asked for all storage of deployed accounts. -/
  nocache : Bool

namespace Debugger

/-- The contracts of artifacts, in the order of the artifacts. -/
def registryOf (artifacts : List Artifact) : Except Error Registry := do
  let sources := Sources.ofArtifacts artifacts
  return .ofContracts (← artifacts.mapM (Contract.ofArtifact sources))

def ofArtifacts (provider : Provider) (nocache : Bool) (artifacts : List Artifact) :
    Except Error Debugger := do
  return ⟨provider, ← registryOf artifacts, Sources.ofArtifacts artifacts, nocache⟩

/-- The roots of a contract's syntax trees that belong to a file. -/
def rootsOf (contract : Contract) (file : String) : List NodeId :=
  contract.ast.roots.filter fun root =>
    ((contract.ast.get? root).bind fun node => node.text? "absolutePath") == some file

/-- The lines of a file that a breakpoint can be set on. -/
def checkpoints (debugger : Debugger) (file : String) : List Nat :=
  match debugger.sources[file]? with
  | none => []
  | some source =>
      sortedLines <| debugger.registry.toList.flatMap fun contract =>
        (rootsOf contract file).flatMap fun root => source.checkpoints contract.ast root

/-- The steps of a transaction. -/
def trace (debugger : Debugger) (hash : Word) : Except Error (List Step) := do
  reduce debugger.registry (← TraceInputs.fetch debugger.provider hash)

/-- A session over the steps of a transaction. -/
def debug (debugger : Debugger) (hash : Word) : Except Error Session := do
  let inputs ← TraceInputs.fetch debugger.provider hash
  let steps ← reduce debugger.registry inputs
  Session.start debugger.sources inputs.transaction steps debugger.nocache

end Debugger

end SolTrace
