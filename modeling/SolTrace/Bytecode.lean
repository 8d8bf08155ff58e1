import SolTrace.Error
import SolTrace.Keccak
/-!
The identity of code. Code is given as hexadecimal text, here as the bytes of that text, in which
places for library addresses may still be open. Its normal form leaves out all that differs between
two deployments of one contract, and its identity is the hash of the normal form.
-/
set_option autoImplicit false

namespace SolTrace.Bytecode

/-- How many characters a place for a library address takes. -/
def placeholderLength : Nat := 40

def lowerByte (byte : UInt8) : UInt8 :=
  if 0x41 ≤ byte ∧ byte ≤ 0x5A then byte + 0x20 else byte

def zeros (count : Nat) : List UInt8 :=
  List.replicate count 0x30

/-- Where the placeholders of a text start, if the text itself starts at `position`. One starts
with two underscores on a byte boundary and has its full length. -/
def placeholdersFrom : Nat → List UInt8 → List Nat
  | position, 0x5F :: 0x5F :: text =>
      if placeholderLength - 2 ≤ text.length then
        position :: placeholdersFrom (position + placeholderLength)
          (text.drop (placeholderLength - 2))
      else []
  | position, _ :: _ :: text => placeholdersFrom (position + 2) text
  | _, _ => []
termination_by _ text => text.length
decreasing_by
  all_goals simp only [List.length_cons, List.length_drop]
  all_goals omega

def placeholders (text : List UInt8) : List Nat :=
  placeholdersFrom 0 (Hex.stripPrefix text)

/-- Writes zeros over one placeholder. -/
def overwrite (text : List UInt8) (start : Nat) : List UInt8 :=
  text.take start ++ zeros placeholderLength ++ text.drop (start + placeholderLength)

/-- Fills all placeholders with the zero address, so that the text can be read as digits. -/
def zeroPlaceholders (text : List UInt8) : List UInt8 :=
  let code := Hex.stripPrefix text
  (placeholders code).foldl overwrite code

/-- A library starts by pushing its own address and comparing it with the running one; that
address is set to zero. -/
def zeroGuard (text : List UInt8) : List UInt8 :=
  if [0x37, 0x33].isPrefixOf text ∧ [0x33, 0x30, 0x31, 0x34].isPrefixOf (text.drop 42) then
    text.take 2 ++ zeros 40 ++ text.drop 42
  else text

/-- The starts of the metadata that compilers append. -/
def markers : List (List UInt8) :=
  ["a165627a7a72", "a265627a7a72", "a2646970667358", "a264736f6c63"].map Text.utf8

/-- Where a marker occurs in a text, if the text itself starts at `position`. It is looked for from
the left, and an occurrence does not overlap the one before, to which the first `skip` bytes of the
text belong. -/
def occurrencesFrom (marker : List UInt8) : Nat → Nat → List UInt8 → List Nat
  | _, _, [] => []
  | position, skip + 1, _ :: text => occurrencesFrom marker (position + 1) skip text
  | position, 0, byte :: text =>
      if marker.isPrefixOf (byte :: text) then
        position :: occurrencesFrom marker (position + 1) (marker.length - 1) text
      else occurrencesFrom marker (position + 1) 0 text

/-- The first occurrence of a marker on a byte boundary. -/
def findEven? (text marker : List UInt8) : Option Nat :=
  (occurrencesFrom marker 0 0 text).find? fun start => start % 2 == 0

/-- The text before the first marker that stands on a byte boundary. -/
def beforeMarker (text : List UInt8) : List UInt8 :=
  match (markers.filterMap (findEven? text)).min? with
  | some start => text.take start
  | none => text

/-- What two deployments of one contract share: everything before the metadata, in lower case, with
zero addresses for libraries. -/
def normalize (text : List UInt8) : List UInt8 :=
  beforeMarker (zeroGuard (zeroPlaceholders ((Hex.stripPrefix text).map lowerByte)))

/-- Whether deployed code is the unlinked code of an artifact with its placeholders filled in. -/
def matchesUnlinked (artifact deployed : List UInt8) : Bool :=
  let code := (Hex.stripPrefix deployed).map lowerByte
  let masked := ((placeholders artifact).filter fun start =>
    start + placeholderLength ≤ code.length).foldl overwrite code
  normalize masked == normalize artifact

/-- The bytes of a code whose placeholders count as zero. -/
def decode (text : List UInt8) : Except Error (List UInt8) :=
  (Hex.decode (Text.ofUtf8Lossy (zeroPlaceholders text))).mapError .hex

end Bytecode

/-- The hash of normalized code. -/
abbrev BytecodeId := Word

namespace BytecodeId

def ofText (text : List UInt8) : BytecodeId :=
  keccak256 (Bytecode.normalize text)

def ofBytes (code : List UInt8) : BytecodeId :=
  ofText (Text.utf8 (Hex.encode code))

/-- The first eight digits. -/
def short (id : BytecodeId) : String :=
  Hex.encode (id.bytes.take 4)

end BytecodeId

end SolTrace
