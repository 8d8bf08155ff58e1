import SolTrace.Ast.Basic
import SolTrace.Source
import SolTrace.Text.Integer
/-!
Checkpoints: the lines of a source file that a breakpoint can be set on. These are the lines in
function definitions that some node starts and ends on.
-/
set_option autoImplicit false

namespace SolTrace

/-- The sorted numbers without repetitions. -/
def sortedLines (lines : List Nat) : List Nat :=
  (lines.mergeSort (· ≤ ·)).eraseReps

namespace Source

/-- The offset and length in the range of a node. -/
def nodeRange? (src : String) : Option (Nat × Nat) :=
  match Text.split ':' src.toList with
  | offset :: length :: _ =>
      match Text.nat64? (String.ofList offset), Text.nat64? (String.ofList length) with
      | some offset, some length => some (offset, length)
      | _, _ => none
  | _ => none

/-- The line that a node starts and ends on. -/
def nodeLine? (source : Source) (node : Node) : Option Nat :=
  (nodeRange? node.src).bind fun (offset, length) =>
    let range := source.range offset length
    if range.isLine then range.startLine? else none

/-- The checkpoints of the functions below a root. -/
def checkpoints (source : Source) (ast : Ast) (root : NodeId) : List Nat :=
  sortedLines <| (ast.find root .functionDefinition).flatMap fun function =>
    (ast.walk function.id).filterMap source.nodeLine?

end Source

end SolTrace
