import SolTrace.Error
import SolTrace.Text.Integer
import SolTrace.Text.Split
/-!
Source maps: for each instruction of a code the range of source text that it was made from. The
entries are separated by semicolons and their fields by colons; an empty field repeats the field of
the entry before.
-/
set_option autoImplicit false

namespace SolTrace

inductive JumpType
  | into
  | out
  | regular
deriving Repr, DecidableEq

namespace JumpType

def text : JumpType → String
  | .into => "i"
  | .out => "o"
  | .regular => "-"

def ofText? : List Char → Option JumpType
  | ['i'] => some .into
  | ['o'] => some .out
  | ['-'] => some .regular
  | _ => none

end JumpType

/-- A resolved entry. -/
structure SourceLocation where
  offset : Nat
  length : Nat
  fileIndex : Int
  jump : JumpType
deriving Repr, DecidableEq

namespace SourceLocation

/-- What the fields before the first entry count as. -/
def initial : SourceLocation := ⟨0, 0, -1, .regular⟩

/-- The text that syntax nodes give their own range in. -/
def position (location : SourceLocation) : String :=
  toString location.offset ++ ":" ++ toString location.length ++ ":" ++
    toString location.fileIndex

end SourceLocation

namespace SourceMap

/-- The number in a field, or the number before if the field is empty or missing. -/
def readNumber (fault : SourceMapFault) (last : Int) : List Char → Except SourceMapFault Int
  | [] => .ok last
  | field => (Text.readInt field).mapError fun _ => fault

def readJump (last : JumpType) : List Char → Except SourceMapFault JumpType
  | [] => .ok last
  | field =>
      match JumpType.ofText? field with
      | some jump => .ok jump
      | none => .error .jumpType

/-- The entry with the given fields, after the entry `last`. A negative offset or length counts as
zero, and fields after the fourth are ignored. -/
def readFields (last : SourceLocation) (fields : List (List Char)) :
    Except SourceMapFault SourceLocation := do
  let field (n : Nat) := fields[n]?.getD []
  let offset ← readNumber .offset last.offset (field 0)
  let length ← readNumber .length last.length (field 1)
  let fileIndex ← readNumber .fileIndex last.fileIndex (field 2)
  let jump ← readJump last.jump (field 3)
  return ⟨offset.toNat, length.toNat, fileIndex, jump⟩

def readEntry (last : SourceLocation) (entry : List Char) : Except Error SourceLocation :=
  (readFields last (Text.split ':' entry)).mapError (.sourceMap (String.ofList entry))

/-- Reads the entries that follow the entry `last`. -/
def readEntries : SourceLocation → List (List Char) → Except Error (List SourceLocation)
  | _, [] => .ok []
  | last, entry :: entries => do
      let location ← readEntry last entry
      return location :: (← readEntries location entries)

/-- One result per instruction; what the compiler made up itself has none. -/
def parse (text : String) : Except Error (List (Option SourceLocation)) := do
  let locations ← readEntries .initial (Text.split ';' text.toList)
  return locations.map fun location =>
    if location.fileIndex = -1 then none else some location

end SourceMap

end SolTrace
