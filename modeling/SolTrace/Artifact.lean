import SolTrace.Json.Record
import Std.Data.ExtTreeMap
/-!
Artifacts: what a compiler writes for one contract, with all source files of the compilation.
-/
set_option autoImplicit false

namespace SolTrace

structure SourceFile where
  id : Int
  ast : Json
  text : String
deriving Inhabited

structure Artifact where
  name : String
  creationCode : String
  creationMap : String
  runtimeCode : String
  runtimeMap : String
  sources : Std.ExtTreeMap String SourceFile
  abi : Option Json

namespace SourceFile

def ofJson? (json : Json) : Option SourceFile := do
  match ← json.fields? ["id", "ast", "source"] with
  | [some id, some ast, text] =>
      return ⟨← id.int64?, ast, ← Json.withDefault Json.string? "" text⟩
  | _ => none

end SourceFile

namespace Artifact

/-- The source files by name. -/
def sourcesOfJson? (json : Json) : Option (Std.ExtTreeMap String SourceFile) := do
  (← json.members?).foldlM
    (fun files member => do return files.insert member.1 (← SourceFile.ofJson? member.2)) ∅

def ofJson? (json : Json) : Option Artifact := do
  let fields ← json.fields?
    ["contractName", "bytecode", "sourceMap", "runtimeBytecode", "sourceMapRuntime", "sources",
      "abi"]
  match fields with
  | [some name, some creationCode, some creationMap, some runtimeCode, some runtimeMap,
      some sources, abi] =>
      return {
        name := ← name.string?
        creationCode := ← creationCode.string?
        creationMap := ← creationMap.string?
        runtimeCode := ← runtimeCode.string?
        runtimeMap := ← runtimeMap.string?
        sources := ← sourcesOfJson? sources
        abi := ← Json.optional some abi }
  | _ => none

/-- The artifacts of a document: one, or an array of them. -/
def allOfJson? : Json → Option (List Artifact)
  | .array items => items.mapM ofJson?
  | json => do return [← ofJson? json]

end Artifact

end SolTrace
