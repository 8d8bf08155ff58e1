import SolTrace.State.Basic
import SolTrace.Value
/-!
Decoding: reading the value of a variable from the stack, from memory or from storage.
-/
set_option autoImplicit false

namespace SolTrace

namespace Decode

/-- Lengths above this are taken for garbage. -/
def maxLength : Nat := 0x100000

def fail {α : Type} (fault : DecodeFault) : Except Error α :=
  .error (.decode fault)

/-- A pointer has to fit into 64 bits. -/
def pointer (word : Word) : Except Error Nat :=
  if word.toNat ≤ Text.maxNat64 then .ok word.toNat else fail (.pointerRange word)

def length (word : Word) : Except Error Nat := do
  let length ← pointer word
  if length ≤ maxLength then return length else fail (.lengthTooLarge length)

/-! ### Value types -/

def signBit (bytes : List UInt8) : Bool :=
  bytes.head?.any fun byte => byte &&& 0x80 != 0

/-- The two's complement number of the `width` bytes of an integer. The bits of the word before them
are filled with the sign. -/
def signed (width : Nat) (bytes : List UInt8) : Int :=
  let word := Word.ofBytes bytes
  if width < 32 ∧ signBit bytes then (word ||| BitVec.allOnes 256 <<< (8 * width)).toInt
  else word.toInt

def ofElementary (type : Ty) (bytes : List UInt8) : Elementary → Except Error Value
  | .bool => .ok (.bool (bytes.any (· != 0)))
  | .uint _ => .ok (.uint (Word.ofBytes bytes))
  | .int width => .ok (.int (signed width bytes))
  | .address => .ok (.address (Address.ofBytes bytes))
  | .fixedBytes _ | .function _ => .ok (.fixedBytes bytes)
  | .fixed _ => fail .fixedPoint
  | .bytes | .string => fail (.noValueType type.text)

/-- The value of a value type with the given bytes. -/
def ofBytes (type : Ty) (bytes : List UInt8) : Except Error Value :=
  match type with
  | .enum _ values => .ok ((values[ofBigEndian bytes]?).elim .invalid .enum)
  | type =>
      match type.elementary? with
      | some elementary => ofElementary type bytes elementary
      | none => fail (.noValueType type.text)

/-- Whether values of a type stand at the high end of a word. -/
def isLeftAligned (type : Ty) : Bool :=
  match type.elementary? with
  | some (.fixedBytes _) | some (.function _) => true
  | _ => false

/-- The value of a value type in a word of the stack or of memory. -/
def ofWord (type : Ty) (word : Word) : Except Error Value :=
  let width := type.bytes
  ofBytes type (if isLeftAligned type then word.bytes.take width else word.bytes.drop (32 - width))

/-! ### Memory -/

/-- A word of memory; past its end there are zeros. -/
def memoryWord (memory : List UInt8) (offset : Nat) : Word :=
  let bytes := (memory.drop offset).take 32
  Word.ofBytes (bytes ++ List.replicate (32 - bytes.length) 0)

/-- Bytes that follow their length. -/
def memoryBytes (memory : List UInt8) (pointer : Nat) : Except Error (List UInt8) := do
  let length ← length (memoryWord memory pointer)
  if memory.length < pointer + 32 + length then fail (.bytesPastMemory length pointer)
  else return (memory.drop (pointer + 32)).take length

/-- The value that a word of memory holds: a reference type is a pointer that has to be followed. -/
def ofMemoryWord (type : Ty) (follow : Nat → Except Error Value) (word : Word) :
    Except Error Value := do
  if type.isReference then follow (← pointer word) else ofWord type word

/-- How many elements an array in memory has, and where they start. -/
def memoryElements (memory : List UInt8) (start : Nat) : Option Nat → Except Error (Nat × Nat)
  | some count => .ok (count, start)
  | none => do return (← length (memoryWord memory start), start + 32)

def ofMemoryBytes (type : Ty) (memory : List UInt8) (start : Nat) : Except Error Value :=
  match type.elementary? with
  | some .bytes => do return .bytes (← memoryBytes memory start)
  | some .string => do return .string (Text.ofUtf8Lossy (← memoryBytes memory start))
  | _ => ofWord type (memoryWord memory start)

mutual

/-- The value that stands in memory at a position. -/
def ofMemory (memory : List UInt8) (type : Ty) (start : Nat) : Except Error Value :=
  if memory.length < start then fail (.pointerPastMemory start)
  else
    match type with
    | .mapping _ _ => .ok .mapping
    | .struct _ members => do return .struct (← membersOfMemory memory members start)
    | .array base fixed => do
        let (count, first) ← memoryElements memory start fixed
        if memory.length < count * 32 then fail (.elementsPastMemory count)
        else
          return .array (← (List.range count).mapM fun i =>
            ofMemoryWord base (ofMemory memory base) (memoryWord memory (first + 32 * i)))
    | .elementary name => ofMemoryBytes (.elementary name) memory start
    | .enum name values => ofMemoryBytes (.enum name values) memory start

/-- The members of a struct, one word each. Mappings take no word. -/
def membersOfMemory (memory : List UInt8) : List Variable → Nat →
    Except Error (List (String × Value))
  | [], _ => .ok []
  | ⟨_, name, _, type, _, _, _, _⟩ :: members, position =>
      if type.isMapping then membersOfMemory memory members position
      else do
        let value ← ofMemoryWord type (ofMemory memory type) (memoryWord memory position)
        return (name, value) :: (← membersOfMemory memory members (position + 32))

end

/-! ### Storage -/

/-- Where the data of a dynamic value starts whose length stands in a slot. -/
def dataSlot (slot : Word) : Word :=
  keccak256 slot.bytes

/-- The words of consecutive slots. -/
def readSlots (provider : Provider) (slot : Word) (count : Nat) : Decoder (List Word) :=
  (List.range count).mapM fun i => State.readSlot provider (slot + BitVec.ofNat 256 i)

/-- A byte string. A short one stands in its slot, before the double of its length; a long one has
its length doubled, plus one, in its slot, and its bytes from the data slot on. -/
def storageBytes (provider : Provider) (slot : Word) : Decoder (List UInt8) := do
  let word ← State.readSlot provider slot
  if word.toNat % 2 = 0 then
    let length := word.toNat % 256 / 2
    if 31 < length then throw (.decode (.shortLength length))
    else return word.bytes.take length
  else
    let length ← Decoder.lift (length (BitVec.ofNat 256 (word.toNat / 2)))
    let words ← readSlots provider (dataSlot slot) ((length + 31) / 32)
    return (words.flatMap Word.bytes).take length

/-- The bytes of a packed value of `width` bytes at an offset from the low end of a word. -/
def packedBytes (word : Word) (offset width : Nat) : List UInt8 :=
  (word.bytes.drop (32 - offset - width)).take width

/-- A value that is kept in one slot. -/
def ofSlot (provider : Provider) (type : Ty) (slot : Word) (offset : Nat) : Decoder Value := do
  match type.elementary? with
  | some .bytes => return .bytes (← storageBytes provider slot)
  | some .string => return .string (Text.ofUtf8Lossy (← storageBytes provider slot))
  | _ =>
      if 32 < offset + type.bytes then throw (.decode (.overflowsSlot type.text offset))
      else
        let word ← State.readSlot provider slot
        Decoder.lift (ofBytes type (packedBytes word offset type.bytes))

/-- Elements of a type that are packed from a slot on, after those already read. -/
def elementsFrom (base : Ty) (slot : Word) (element : Word → Nat → Decoder Value) :
    Nat → Cursor → List Value → Decoder (List Value)
  | 0, _, read => pure read.reverse
  | count + 1, cursor, read => do
      let (place, next) := cursor.place base
      let value ← element (slot + BitVec.ofNat 256 place.slot) place.offset
      elementsFrom base slot element count next (value :: read)

/-- How many elements an array in storage has, and the slot that they start at. -/
def storageElements (provider : Provider) (slot : Word) : Option Nat → Decoder (Nat × Word)
  | some count => pure (count, slot)
  | none => do
      let count ← Decoder.lift (length (← State.readSlot provider slot))
      return (count, dataSlot slot)

mutual

/-- The value that storage holds at an offset of a slot. -/
def ofStorage (provider : Provider) : Ty → Word → Nat → Decoder Value
  | .mapping _ _, _, _ => pure .mapping
  | .struct _ members, slot, _ => do
      return .struct (← membersOfStorage provider slot members .start)
  | .array base fixed, slot, _ => do
      let (count, first) ← storageElements provider slot fixed
      return .array (← elementsFrom base first (ofStorage provider base) count .start [])
  | .elementary name, slot, offset => ofSlot provider (.elementary name) slot offset
  | .enum name values, slot, offset => ofSlot provider (.enum name values) slot offset

/-- The members of a struct that starts at a slot, from a place in it on. -/
def membersOfStorage (provider : Provider) (slot : Word) : List Variable → Cursor →
    Decoder (List (String × Value))
  | [], _ => pure []
  | ⟨_, name, _, type, _, _, mutability, literal⟩ :: members, cursor =>
      match mutability, literal with
      | .mutable, _ => do
          let (place, next) := cursor.place type
          let value ← ofStorage provider type (slot + BitVec.ofNat 256 place.slot) place.offset
          return (name, value) :: (← membersOfStorage provider slot members next)
      | .constant, some literal => do
          return (name, .constant literal) :: (← membersOfStorage provider slot members cursor)
      | _, _ => membersOfStorage provider slot members cursor

end

end Decode

namespace State

/-- The value of a variable. Local variables in storage are pointers to it, and the place of those
in calldata is not known. -/
def decode (provider : Provider) (assignment : Assignment) : Decoder Value := do
  let var := assignment.var
  match assignment.location with
  | .constant value => return .constant value
  | .storage slot offset => Decode.ofStorage provider var.type slot offset
  | .memory position =>
      let state ← get
      Decoder.lift do
        let start ← Decode.pointer (← state.stackWord position)
        Decode.ofMemory state.snapshot.memory var.type start
  | .stack position =>
      let word ← Decoder.lift ((← get).stackWord position)
      match var.location with
      | .calldata => return .undefined
      | .storage =>
          if var.type.isReference then Decode.ofStorage provider var.type word 0
          else Decoder.lift (Decode.ofWord var.type word)
      | _ => Decoder.lift (Decode.ofWord var.type word)

/-- The values of variables by name. A variable that cannot be decoded does not stop the others. -/
def decodeAll (provider : Provider) (assignments : List Assignment) :
    StateM State (List (String × Value)) :=
  assignments.mapM fun assignment => do
    match ← (decode provider assignment).run with
    | .ok value => return (assignment.var.name, value)
    | .error _ => return (assignment.var.name, .undefined)

end State

end SolTrace
