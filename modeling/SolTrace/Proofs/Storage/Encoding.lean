import SolTrace.Proofs.Storage.Bytes
/-!
How values are encoded in storage: the numbers that they put into the bytes of the slots. Value
types are packed from the low end of a slot, dynamic values leave a length at their place and have
their data from a hash of it on.
-/
set_option autoImplicit false

namespace SolTrace

/-! ### Values of a type -/

/-- The values that an elementary type has. -/
def Elementary.Has : Elementary → Value → Prop
  | .bool, .bool _ => True
  | .address, .address _ => True
  | .uint width, .uint value => value.toNat < 256 ^ width
  | .int width, .int value =>
      -(256 ^ width : Nat) ≤ 2 * value ∧ 2 * value < (256 ^ width : Nat)
  | .fixedBytes width, .fixedBytes data => data.length = width
  | .bytes, .bytes data => data.length ≤ Decode.maxLength
  | .string, .string text => (Text.utf8 text).length ≤ Decode.maxLength
  | _, _ => False

namespace Ty

/-- Induction over types: what holds of the members of a struct holds of the struct. -/
@[elab_as_elim]
theorem induction {motive : Ty → Prop}
    (elementary : ∀ name, motive (.elementary name))
    (array : ∀ base length, motive base → motive (.array base length))
    (mapping : ∀ key value, motive (.mapping key value))
    (struct : ∀ name members, (∀ member ∈ members, motive member.type) →
      motive (.struct name members))
    (enum : ∀ name values, motive (.enum name values)) (type : Ty) : motive type := by
  apply @Ty.rec motive (fun member => motive member.type)
    (fun members => ∀ member ∈ members, motive member.type)
  · exact elementary
  · exact array
  · exact fun key value _ _ => mapping key value
  · exact struct
  · exact enum
  · exact fun _ _ _ _ _ _ _ _ holds => holds
  · exact fun member within => absurd within List.not_mem_nil
  · intro head members first rest member within
    cases within with
    | head => exact first
    | tail _ within => exact rest member within

mutual

/-- The values that a type has. Mappings, functions and fixed-point numbers have none. -/
def Has : Ty → Value → Prop
  | .elementary name, value => ∃ type, Elementary.ofName? name = some type ∧ type.Has value
  | .enum _ values, .enum member => member ∈ values
  | .struct _ members, .struct fields => MembersHave members fields
  | .array base (some length), .array items =>
      items.length = length ∧ ∀ item ∈ items, base.Has item
  | .array base none, .array items =>
      items.length ≤ Decode.maxLength ∧ ∀ item ∈ items, base.Has item
  | _, _ => False

/-- Whether values with names are those of mutable variables, one for each in their order. -/
def MembersHave : List Variable → List (String × Value) → Prop
  | [], [] => True
  | ⟨_, name, _, type, _, _, mutability, _⟩ :: members, (field, value) :: fields =>
      mutability = .mutable ∧ field = name ∧ type.Has value ∧ MembersHave members fields
  | _, _ => False

end

mutual

/-- Whether the sizes in a value can be told: the slots of its arrays, and in a single word the
members of its enumerations. -/
def Fits : Ty → Value → Prop
  | .enum _ values, _ => values.length ≤ 256 ^ 32
  | .struct _ members, .struct fields => MembersFit members fields
  | .array base _, .array items =>
      (base.isReference → items.length * base.slots ≤ maxSlots) ∧ ∀ item ∈ items, base.Fits item
  | _, _ => True

def MembersFit : List Variable → List (String × Value) → Prop
  | ⟨_, _, _, type, _, _, _, _⟩ :: members, (_, value) :: fields =>
      type.Fits value ∧ MembersFit members fields
  | _, _ => True

end

/-- The place of an element of an array. As many packed elements as fit share a slot. -/
def elementPlace (base : Ty) (i : Nat) : Cursor :=
  if base.isReference then ⟨i * base.slots, 0⟩
  else ⟨i / (32 / base.bytes), i % (32 / base.bytes) * base.bytes⟩

end Ty

/-! ### Cells -/

/-- A number in some bytes of a slot. The offset counts bytes from the low end. -/
structure Cell where
  slot : Word
  offset : Nat
  width : Nat
  number : Nat
deriving Repr, DecidableEq

/-- Whether storage has the number of a cell in its bytes. -/
def Cell.In (cell : Cell) (view : Word → Word) : Prop :=
  (view cell.slot).toNat / 256 ^ cell.offset % 256 ^ cell.width = cell.number

instance (cell : Cell) (view : Word → Word) : Decidable (cell.In view) :=
  inferInstanceAs (Decidable (_ = _))

namespace Encoding

/-- The number of a value type. Negative numbers are in two's complement. -/
def number : Value → Nat → Nat
  | .bool value, _ => value.toNat
  | .uint value, _ => value.toNat
  | .int value, width => (value % (256 ^ width : Nat)).toNat
  | .address value, _ => value.toNat
  | .fixedBytes bytes, _ => ofBigEndian bytes
  | _, _ => 0

/-- A byte string of at most 31 bytes in its slot: the double of its length is the last byte. -/
def shortBytes (data : List UInt8) : List UInt8 :=
  data ++ List.replicate (31 - data.length) 0 ++ [UInt8.ofNat (2 * data.length)]

theorem shortBytes_length (data : List UInt8) (short : data.length ≤ 31) :
    (shortBytes data).length = 32 := by
  simp only [shortBytes, List.length_append, List.length_replicate, List.length_singleton]
  omega

/-- The bytes of a long byte string in a slot of its data, filled with zeros. -/
def chunk (data : List UInt8) (i : Nat) : List UInt8 :=
  let part := (data.drop (32 * i)).take 32
  part ++ List.replicate (32 - part.length) 0

theorem chunk_length (data : List UInt8) (i : Nat) : (chunk data i).length = 32 := by
  simp only [chunk, List.length_append, List.length_replicate, List.length_take]
  omega

/-- The slots that the data of a byte string takes. -/
def chunks (data : List UInt8) : Nat :=
  (data.length + 31) / 32

def ofBytes (data : List UInt8) (slot : Word) : List Cell :=
  if data.length ≤ 31 then [⟨slot, 0, 32, ofBigEndian (shortBytes data)⟩]
  else
    ⟨slot, 0, 32, 2 * data.length + 1⟩ :: (List.range (chunks data)).map fun i =>
      ⟨Decode.dataSlot slot + BitVec.ofNat 256 i, 0, 32, ofBigEndian (chunk data i)⟩

def ofElementary (type : Elementary) (value : Value) (slot : Word) (offset : Nat) : List Cell :=
  match type, value with
  | .bytes, .bytes data => ofBytes data slot
  | .string, .string text => ofBytes (Text.utf8 text) slot
  | type, value => [⟨slot, offset, type.width, number value type.width⟩]

/-- The cells of the elements of an array from the one at an index on. -/
def ofElements (base : Ty) (cells : Value → Word → Nat → List Cell) (first : Word) :
    Nat → List Value → List Cell
  | _, [] => []
  | i, item :: items =>
      let place := base.elementPlace i
      cells item (first + BitVec.ofNat 256 place.slot) place.offset ++
        ofElements base cells first (i + 1) items

mutual

/-- The cells of a value at an offset of a slot. -/
def cells : Ty → Value → Word → Nat → List Cell
  | .elementary name, value, slot, offset =>
      match Elementary.ofName? name with
      | some type => ofElementary type value slot offset
      | none => []
  | .enum _ values, .enum member, slot, offset =>
      [⟨slot, offset, Ty.enumWidth values.length, values.idxOf member⟩]
  | .struct _ members, .struct fields, slot, _ => memberCells members fields slot .start
  | .array base (some _), .array items, slot, _ => ofElements base (cells base) slot 0 items
  | .array base none, .array items, slot, _ =>
      ⟨slot, 0, 32, items.length⟩ ::
        ofElements base (cells base) (Decode.dataSlot slot) 0 items
  | _, _, _, _ => []

/-- The cells of variables that are put down from a cursor on, slots counted from a first one. -/
def memberCells : List Variable → List (String × Value) → Word → Cursor → List Cell
  | ⟨_, _, _, type, _, _, _, _⟩ :: members, (_, value) :: fields, first, cursor =>
      let (place, next) := cursor.place type
      cells type value (first + BitVec.ofNat 256 place.slot) place.offset ++
        memberCells members fields first next
  | _, _, _, _ => []

end

/-- The cells of a value at the location of a variable. -/
def ofAssignment (assignment : Assignment) (value : Value) : List Cell :=
  match assignment.location with
  | .storage slot offset => cells assignment.var.type value slot offset
  | _ => []

/-- The cells of the values of state variables at the locations of the layout. -/
def ofVariables (vars : List Variable) (fields : List (String × Value)) : List Cell :=
  ((Layout.ofVariables vars).assignments.zip fields).flatMap fun placed =>
    ofAssignment placed.1 placed.2.2

end Encoding

/-! ### Areas -/

/-- Consecutive slots. -/
structure Area where
  first : Word
  size : Nat
deriving Repr, DecidableEq

namespace Area

/-- No slot is in both areas. -/
def Apart (area other : Area) : Prop :=
  ∀ i < area.size, ∀ j < other.size,
    area.first + BitVec.ofNat 256 i ≠ other.first + BitVec.ofNat 256 j

instance (area other : Area) : Decidable (area.Apart other) :=
  inferInstanceAs (Decidable (∀ i < area.size, ∀ j < other.size, _))

/-- Areas that have no slot in common, nor any slot twice. -/
structure Disjoint (areas : List Area) : Prop where
  small : ∀ area ∈ areas, area.size ≤ 2 ^ 256
  apart : areas.Pairwise Apart

end Area

namespace Encoding

/-- The slots of the data of a byte string. -/
def areaOfBytes (data : List UInt8) (slot : Word) : List Area :=
  if data.length ≤ 31 then [] else [⟨Decode.dataSlot slot, chunks data⟩]

def areasOfElementary (type : Elementary) (value : Value) (slot : Word) : List Area :=
  match type, value with
  | .bytes, .bytes data => areaOfBytes data slot
  | .string, .string text => areaOfBytes (Text.utf8 text) slot
  | _, _ => []

/-- The areas of the elements of an array from the one at an index on. -/
def areasOfElements (base : Ty) (areas : Value → Word → List Area) (first : Word) :
    Nat → List Value → List Area
  | _, [] => []
  | i, item :: items =>
      areas item (first + BitVec.ofNat 256 (base.elementPlace i).slot) ++
        areasOfElements base areas first (i + 1) items

mutual

/-- The areas outside of its own slots that a value has data in. -/
def areas : Ty → Value → Word → List Area
  | .elementary name, value, slot =>
      match Elementary.ofName? name with
      | some type => areasOfElementary type value slot
      | none => []
  | .struct _ members, .struct fields, slot => memberAreas members fields slot .start
  | .array base (some _), .array items, slot => areasOfElements base (areas base) slot 0 items
  | .array base none, .array items, slot =>
      ⟨Decode.dataSlot slot, (Ty.array base (some items.length)).slots⟩ ::
        areasOfElements base (areas base) (Decode.dataSlot slot) 0 items
  | _, _, _ => []

def memberAreas : List Variable → List (String × Value) → Word → Cursor → List Area
  | ⟨_, _, _, type, _, _, _, _⟩ :: members, (_, value) :: fields, first, cursor =>
      let (place, next) := cursor.place type
      areas type value (first + BitVec.ofNat 256 place.slot) ++
        memberAreas members fields first next
  | _, _, _, _ => []

end

def areasOfAssignment (assignment : Assignment) (value : Value) : List Area :=
  match assignment.location with
  | .storage slot _ => areas assignment.var.type value slot
  | _ => []

/-- The slots of the layout, and the areas outside of them that state variables have data in. -/
def areasOfVariables (vars : List Variable) (fields : List (String × Value)) : List Area :=
  ⟨0, (Layout.ofVariables vars).slots⟩ ::
    ((Layout.ofVariables vars).assignments.zip fields).flatMap fun placed =>
      areasOfAssignment placed.1 placed.2.2

end Encoding

/-! ### Images -/

namespace Cell

/-- No byte is in both cells. -/
def Apart (cell other : Cell) : Prop :=
  cell.slot ≠ other.slot ∨ cell.offset + cell.width ≤ other.offset ∨
    other.offset + other.width ≤ cell.offset

instance (cell other : Cell) : Decidable (cell.Apart other) :=
  inferInstanceAs (Decidable (_ ∨ _ ∨ _))

/-- A number with some of its bytes replaced by those of another one. -/
def splice (n offset width number : Nat) : Nat :=
  n % 256 ^ offset + 256 ^ offset * (number + 256 ^ width * (n / 256 ^ (offset + width)))

/-- Puts the number of a cell into storage. -/
def write (cell : Cell) (view : Word → Word) (slot : Word) : Word :=
  if slot = cell.slot then
    BitVec.ofNat 256 (splice (view slot).toNat cell.offset cell.width cell.number)
  else view slot

end Cell

namespace Encoding

/-- The storage that has the numbers of cells in it and zeros everywhere else. -/
def image (cells : List Cell) : Word → Word :=
  cells.foldr Cell.write fun _ => 0

/-- Whether storage has the numbers of cells in it and zeros everywhere else. -/
structure Encodes (view : Word → Word) (cells : List Cell) : Prop where
  held : ∀ cell ∈ cells, cell.In view
  blank : ∀ slot byte, byte < 32 → (∀ cell ∈ cells, cell.Apart ⟨slot, byte, 1, 0⟩) →
    (⟨slot, byte, 1, 0⟩ : Cell).In view

end Encoding

end SolTrace
