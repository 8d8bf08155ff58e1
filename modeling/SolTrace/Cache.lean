import SolTrace.FileTree
import SolTrace.Json.Parser
import SolTrace.Json.Printer
import SolTrace.Json.Record
/-!
Caches: directories with one JSON file for each label, which holds a value and the second after
which it is no longer valid. Files that are unreadable or out of date are removed when they are
looked at. The clock is a parameter.
-/
set_option autoImplicit false

namespace SolTrace

/-- A value with its last valid second. -/
structure CacheEntry (α : Type) where
  data : α
  expiresAt : Nat
deriving Repr, DecidableEq

namespace CacheEntry

variable {α : Type}

/-- The shape of an entry, by that of its data. -/
def shape (dataShape : Json.Shape) : Json.Shape :=
  .record [("data", dataShape), ("expires_at", .whole)]

/-- The last second of all. -/
def never : Nat :=
  Text.maxNat64

def toJson (write : α → Json) (entry : CacheEntry α) : Json :=
  .object [("data", write entry.data), ("expires_at", .nat entry.expiresAt)]

def ofJson? (read : Json → Option α) (json : Json) : Option (CacheEntry α) := do
  match ← json.fields? ["data", "expires_at"] with
  | [some data, some expiresAt] => return ⟨← read data, ← expiresAt.nat64?⟩
  | _ => none

def ofText? (dataShape : Json.Shape) (read : Json → Option α) (text : String) :
    Option (CacheEntry α) := do
  ofJson? read (← Json.parse? (shape dataShape) text)

def isExpired (now : Nat) (entry : CacheEntry α) : Bool :=
  entry.expiresAt < now

end CacheEntry

/-- A cache without a directory keeps nothing. -/
structure Cache where
  directory : Option String
  /-- For how many seconds values are valid, for ever if it is missing. -/
  lifetime : Option Nat
deriving Repr, DecidableEq

namespace Cache

variable {α : Type}

def disabled : Cache := ⟨none, none⟩

/-- The cache in a directory, which is created if it is missing. -/
def inDirectory (directory : String) (lifetime : Option Nat) :
    FileTree.Change Cache := do
  FileTree.createDirectories directory
  return ⟨some directory, lifetime⟩

/-- The file of a label. -/
def file? (cache : Cache) (label : String) : Option String :=
  cache.directory.map fun directory => FilePath.join directory (label ++ ".json")

/-- The last second of what is saved now. -/
def expiry (cache : Cache) (now : Nat) : Nat :=
  match cache.lifetime with
  | none => CacheEntry.never
  | some lifetime => min (lifetime + now) CacheEntry.never

/-- Saves the value of a label. The answer is whether there was a place for it; a disabled
cache has nothing to fail at. -/
def save (write : α → Json) (now : Nat) (cache : Cache) (label : String) (data : α) :
    StateM FileTree Bool := do
  match cache.file? label with
  | none => return true
  | some path =>
      let text := (CacheEntry.toJson write ⟨data, cache.expiry now⟩).print
      match (← get).write? path text with
      | none => return false
      | some tree =>
          set tree
          return true

/-- The value of a label, if a valid one is there. -/
def load (dataShape : Json.Shape) (read : Json → Option α) (now : Nat) (cache : Cache)
    (label : String) : StateM FileTree (Option α) := do
  let tree ← get
  match (cache.file? label).bind fun path => (tree.read? path).map (path, ·) with
  | none => return none
  | some (path, text) =>
      match (CacheEntry.ofText? dataShape read text).filter fun entry => !entry.isExpired now with
      | some entry => return some entry.data
      | none =>
          set (tree.remove path)
          return none

end Cache

end SolTrace
