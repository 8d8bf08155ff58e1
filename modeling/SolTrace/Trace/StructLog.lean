import SolTrace.Error
import SolTrace.Json.Document
import SolTrace.Json.Printer
import SolTrace.Json.Record
import SolTrace.Json.Shape
import Std.Data.ExtTreeMap
/-!
Struct logs: the state of the machine before each executed instruction, as nodes report it. A log
is read from several notations and written in one of them.
-/
set_option autoImplicit false

namespace SolTrace

abbrev Storage := Std.ExtTreeMap Word Word

structure StructLog where
  pc : Nat
  op : String
  /-- The depth of the call, one for the frame of the transaction itself. -/
  depth : Nat
  /-- The stack from its bottom up. -/
  stack : List Word
  memory : List UInt8
  /-- What is reported of the storage. It need not be all of it. -/
  storage : Storage
  error : Option String

namespace StructLog

/-- The word at a distance from the top of the stack. -/
def peek? (log : StructLog) (n : Nat) : Option Word :=
  log.stack.reverse[n]?

def isCall (log : StructLog) : Bool :=
  ["CALL", "CALLCODE", "DELEGATECALL", "STATICCALL"].contains log.op

def isCreate (log : StructLog) : Bool :=
  ["CREATE", "CREATE2"].contains log.op

/-- Whether the executing frame ends with the instruction. -/
def isHalt (log : StructLog) : Bool :=
  log.error.isSome || ["RETURN", "STOP", "REVERT", "INVALID", "SELFDESTRUCT"].contains log.op

/-- `size` bytes of memory from `offset` on, with zeros past its end. -/
def memorySlice (log : StructLog) (offset size : Nat) : List UInt8 :=
  let bytes := (log.memory.drop offset).take size
  bytes ++ List.replicate (size - bytes.length) 0

/-! ### Reading -/

def readWord (text : String) : Except Error Word :=
  (Word.read text).mapError fun cause => .decode (.word text cause)

def word? (text : String) : Option Word :=
  (Word.read text).toOption

def stackOfJson? (json : Json) : Option (List Word) := do
  (← Json.list? Json.string? json).mapM word?

/-- Memory comes in pieces of hexadecimal text. -/
def memoryOfJson? (json : Json) : Option (List UInt8) := do
  (Hex.decode (String.join (← Json.list? Json.string? json))).toOption

/-- Storage in the order of its keys' text. Of equal slots the last one counts. -/
def storageOfJson? (json : Json) : Option Storage := do
  let texts ← (← json.members?).foldlM
    (fun texts member => do return texts.insert member.1 (← member.2.string?))
    (∅ : Std.ExtTreeMap String String)
  texts.toList.foldlM (fun storage entry => do
    return storage.insert (← word? entry.1) (← word? entry.2)) ∅

/-- The text of an error: a string itself, any other document its compact form. Null is none. -/
def errorOfJson? (json : Json) : Option (Option String) := do
  match ← json.resolve? with
  | .null => return none
  | .string text => return some text
  | json => return some json.print

/-- The fields of a log, in their order. -/
def fieldNames : List String :=
  ["pc", "op", "depth", "stack", "memory", "storage", "error"]

def shape : Json.Shape :=
  .flat fieldNames

def ofJson? (json : Json) : Option StructLog := do
  match ← json.fields? fieldNames with
  | [some pc, some op, depth, stack, memory, storage, error] =>
      return {
        pc := ← pc.nat64?
        op := ← op.string?
        depth := ← Json.withDefault Json.nat64? 0 depth
        stack := (← Json.optional stackOfJson? stack).getD []
        memory := (← Json.optional memoryOfJson? memory).getD []
        storage := (← Json.optional storageOfJson? storage).getD ∅
        error := ← error.elim (some none) errorOfJson? }
  | _ => none

/-! ### Writing -/

/-- The 32-byte pieces of memory, the last one as long as it is. -/
def memoryChunks : List UInt8 → List (List UInt8)
  | [] => []
  | byte :: memory => (byte :: memory.take 31) :: memoryChunks (memory.drop 31)
termination_by memory => memory.length
decreasing_by
  simp only [List.length_drop, List.length_cons]
  omega

def digitsText (word : Word) : String :=
  String.ofList word.digits

def toJson (log : StructLog) : Json :=
  .object <|
    [("pc", .nat log.pc), ("op", .string log.op), ("depth", .nat log.depth),
      ("stack", .array (log.stack.map fun word => .string word.hex)),
      ("memory", .array ((memoryChunks log.memory).map fun bytes => .string (Hex.encode bytes))),
      ("storage", .object (log.storage.toList.map fun entry =>
        (digitsText entry.1, .string (digitsText entry.2))))] ++
    log.error.toList.map fun error => ("error", .string error)

end StructLog

/-- The trace of a transaction. -/
structure Trace where
  failed : Bool
  logs : List StructLog

namespace Trace

def shape : Json.Shape :=
  .record [("failed", .whole), ("structLogs", .list StructLog.shape)]

def ofJson? (json : Json) : Option Trace := do
  match ← json.fields? ["failed", "structLogs"] with
  | [failed, some logs] =>
      return {
        failed := ← Json.withDefault Json.bool? false failed
        logs := ← Json.list? StructLog.ofJson? logs }
  | _ => none

def toJson (trace : Trace) : Json :=
  .object [("failed", .bool trace.failed), ("structLogs", .array (trace.logs.map StructLog.toJson))]

end Trace

end SolTrace
