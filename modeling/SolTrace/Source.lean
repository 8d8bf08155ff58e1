import SolTrace.Text.Split
import SolTrace.Text.Utf8
/-!
Source files: their lines, and the line and column of each byte.
-/
set_option autoImplicit false

namespace SolTrace

/-- A line and a column, both counted from one. Columns count bytes. -/
structure LineColumn where
  line : Nat
  column : Nat
deriving Repr, DecidableEq

namespace LineColumn

/-- The place after a byte; a line break ends the line that it stands on. -/
def next (place : LineColumn) (byte : UInt8) : LineColumn :=
  if byte = 0x0A then ⟨place.line + 1, 1⟩ else ⟨place.line, place.column + 1⟩

end LineColumn

structure Source where
  name : String
  lines : Array String
  /-- The place of every byte. -/
  places : Array LineColumn
deriving Repr

namespace Source

/-- The places of bytes of which the first stands at `place`, after those already found. -/
def placesFrom (place : LineColumn) (bytes : List UInt8) (found : Array LineColumn) :
    Array LineColumn :=
  (bytes.foldl (fun (place, found) byte => (place.next byte, found.push place))
    (place, found)).2

def ofText (name text : String) : Source where
  name
  lines := ((Text.split '\n' text.toList).map String.ofList).toArray
  places := placesFrom ⟨1, 1⟩ (Text.utf8 text) #[]

/-- The place of the byte at an offset. Offsets past the last byte have none. -/
def place? (source : Source) (offset : Nat) : Option LineColumn :=
  source.places[offset]?

/-- The text of a line, counted from one. -/
def line? (source : Source) : Nat → Option String
  | 0 => none
  | line + 1 => source.lines[line]?

end Source

/-- The range of a piece of source text. An end at the end of the file has no place. -/
structure SourceRange where
  start : Option LineColumn
  stop : Option LineColumn
deriving Repr, DecidableEq, Inhabited

namespace SourceRange

def startLine? (range : SourceRange) : Option Nat :=
  range.start.map LineColumn.line

/-- Whether the range starts and ends on one line. -/
def isLine (range : SourceRange) : Bool :=
  match range.start, range.stop with
  | some start, some stop => start.line == stop.line
  | _, _ => false

end SourceRange

/-- The range of `length` bytes from `offset` on. -/
def Source.range (source : Source) (offset length : Nat) : SourceRange :=
  ⟨source.place? offset, source.place? (offset + length)⟩

end SolTrace
