import SolTrace.Ty
import SolTrace.Word
/-!
The storage layout: where each of a list of variables is kept.
-/
set_option autoImplicit false

namespace SolTrace

/-- Where a value is read from. Offsets count bytes from the low end of a slot, stack positions
count words from the bottom, and a value in memory is found through the stack. -/
inductive Location
  | storage (slot : Word) (offset : Nat)
  | memory (position : Nat)
  | stack (position : Nat)
  | constant (value : String)
deriving Repr, DecidableEq, Inhabited

/-- A variable and where it is. -/
structure Assignment where
  var : Variable
  location : Location
deriving Repr

structure Layout where
  assignments : List Assignment
  /-- The slots in use, a partly filled one at the end included. -/
  slots : Nat
deriving Repr

/-! ### Slots without a bound -/

namespace Cursor

/-- The place of the next value of a type, and the cursor after it. -/
def place (cursor : Cursor) (type : Ty) : Cursor × Cursor :=
  let start := cursor.align type.bytes type.isReference
  (start, start.advance type.bytes type.slots type.isReference)

end Cursor

namespace Layout

/-- Puts variables down from a cursor on, in their order. Constants with a literal have that as
their place, other constants and immutables have none. -/
def placeFrom : Cursor → List Variable → List Assignment × Cursor
  | cursor, [] => ([], cursor)
  | cursor, var :: vars =>
      match var.mutability with
      | .mutable =>
          let (start, next) := cursor.place var.type
          let (assignments, last) := placeFrom next vars
          (⟨var, .storage (BitVec.ofNat 256 start.slot) start.offset⟩ :: assignments, last)
      | .constant =>
          let (assignments, last) := placeFrom cursor vars
          match var.value with
          | some value => (⟨var, .constant value⟩ :: assignments, last)
          | none => (assignments, last)
      | .immutable => placeFrom cursor vars

/-- The layout that variables have if slots are counted without a bound. -/
def ofVariables (vars : List Variable) : Layout :=
  let (assignments, last) := placeFrom .start vars
  ⟨assignments, last.slots⟩

end Layout

/-! ### Slots in 64 bits -/

/-- A cursor that counts slots in 64 bits, as the layout of a contract does. Past the largest number
the count starts over. -/
structure Packer where
  slot : UInt64
  offset : Nat
deriving Repr, DecidableEq, Inhabited

namespace Packer

def start : Packer := ⟨0, 0⟩

def align (packer : Packer) (width : Nat) (reference : Bool) : Packer :=
  if 32 < packer.offset + width ∨ (reference ∧ 0 < packer.offset) then ⟨packer.slot + 1, 0⟩
  else packer

def advance (packer : Packer) (width : Nat) (slots : UInt64) (reference : Bool) : Packer :=
  if 1 < slots ∨ reference then ⟨packer.slot + slots, 0⟩
  else ⟨packer.slot, packer.offset + width⟩

def slots (packer : Packer) : UInt64 :=
  if 0 < packer.offset then packer.slot + 1 else packer.slot

end Packer

namespace Ty

mutual

/-- The number of storage slots that a value takes, in 64 bits. Sums start over, and products stop
at the largest number. -/
def slots64 : Ty → UInt64
  | .struct _ members => max 1 (endOf64 members .start).slots
  | .array base (some length) =>
      if base.isReference then .ofNat (min (length * base.slots64.toNat) maxSlots)
      else
        let perSlot := 32 / max 1 base.bytes
        .ofNat ((length + perSlot - 1) / perSlot)
  | _ => 1

/-- The packer after members that are put down from a packer on. -/
def endOf64 : List Variable → Packer → Packer
  | [], packer => packer
  | ⟨_, _, _, type, _, _, mutability, _⟩ :: members, packer =>
      if mutability = .mutable then
        endOf64 members ((packer.align type.bytes type.isReference).advance type.bytes
          type.slots64 type.isReference)
      else endOf64 members packer

end

end Ty

/-- The place of the next value of a type, and the packer after it. -/
def Packer.place (packer : Packer) (type : Ty) : Packer × Packer :=
  let start := packer.align type.bytes type.isReference
  (start, start.advance type.bytes type.slots64 type.isReference)

namespace Layout

/-- Puts variables down from a packer on, in their order. -/
def packFrom : Packer → List Variable → List Assignment × Packer
  | packer, [] => ([], packer)
  | packer, var :: vars =>
      match var.mutability with
      | .mutable =>
          let (start, next) := packer.place var.type
          let (assignments, last) := packFrom next vars
          (⟨var, .storage (BitVec.ofNat 256 start.slot.toNat) start.offset⟩ :: assignments, last)
      | .constant =>
          let (assignments, last) := packFrom packer vars
          match var.value with
          | some value => (⟨var, .constant value⟩ :: assignments, last)
          | none => (assignments, last)
      | .immutable => packFrom packer vars

/-- The layout of the variables of a contract. -/
def pack (vars : List Variable) : Layout :=
  let (assignments, last) := packFrom .start vars
  ⟨assignments, last.slots.toNat⟩

end Layout

end SolTrace
