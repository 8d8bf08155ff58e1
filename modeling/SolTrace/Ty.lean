import SolTrace.Error
import SolTrace.Text.Integer
import SolTrace.Text.Split
/-!
The types of variables, the width of their values in bytes, and the storage slots that they take.
-/
set_option autoImplicit false

namespace SolTrace

/-- What the name of an elementary type stands for, with the width of its values in bytes where
the name decides it. -/
inductive Elementary
  | bool
  | address
  | uint (width : Nat)
  | int (width : Nat)
  | fixedBytes (width : Nat)
  | bytes
  | string
  | function (width : Nat)
  | fixed (width : Nat)
deriving Repr, DecidableEq

namespace Elementary

/-- The text after a prefix. -/
def after? (start : String) (text : List Char) : Option (List Char) :=
  if start.toList.isPrefixOf text then some (text.drop start.toList.length) else none

/-- The width in bytes that a number of bits stands for; no number stands for 256 bits. -/
def bitWidth? (digits : List Char) : Option Nat :=
  if digits.isEmpty then some 32
  else (Text.nat64? (String.ofList digits)).bind fun bits =>
    if bits % 8 = 0 ∧ 8 ≤ bits ∧ bits ≤ 256 then some (bits / 8) else none

def byteWidth? (digits : List Char) : Option Nat :=
  (Text.nat64? (String.ofList digits)).filter fun n => 1 ≤ n && n ≤ 32

/-- The text after as many copies of `fixed` as it starts with. -/
def dropFixed : List Char → List Char
  | 'f' :: 'i' :: 'x' :: 'e' :: 'd' :: rest => dropFixed rest
  | text => text

/-- The width of a fixed-point type, whose name goes on with its bits and its decimal places. -/
def fixedWidth? (name : List Char) : Option Nat :=
  let rest := dropFixed (name.dropWhile (· == 'u'))
  match Text.splitFirst 'x' rest with
  | (bits, some _) => bitWidth? bits
  | (_, none) => if rest.isEmpty then some 16 else none

/-- The meaning of a name that is not one of the plain names. -/
def ofWidth? (name : List Char) : Option Elementary :=
  if (after? "address" name).isSome then some address
  else if let some bits := after? "uint" name then (bitWidth? bits).map uint
  else if let some bits := after? "int" name then (bitWidth? bits).map int
  else if (after? "ufixed" name).isSome || (after? "fixed" name).isSome then
    (fixedWidth? name).map fixed
  else if let some digits := after? "bytes" name then (byteWidth? digits).map fixedBytes
  else none

def ofName? (name : String) : Option Elementary :=
  match name with
  | "bool" => some bool
  | "string" => some string
  | "bytes" => some bytes
  | "byte" => some (fixedBytes 1)
  | "function" => some (function 24)
  | "function internal" => some (function 8)
  | name => ofWidth? name.toList

def width : Elementary → Nat
  | bool => 1
  | address => 20
  | uint width | int width | fixedBytes width | function width | fixed width => width
  | bytes | string => 32

end Elementary

inductive DataLocation
  | storage
  | memory
  | stack
  | calldata
deriving Repr, DecidableEq

inductive Mutability
  | mutable
  | constant
  | immutable
deriving Repr, DecidableEq

mutual

/-- A resolved type. An array without a length is dynamic. -/
inductive Ty
  | elementary (name : String)
  | array (base : Ty) (length : Option Nat)
  | mapping (key value : Ty)
  | struct (name : String) (members : List Variable)
  | enum (name : String) (values : List String)

/-- A declared variable: a state variable, a local one, a parameter or a member of a struct. -/
structure Variable where
  id : NodeId
  name : String
  location : DataLocation
  type : Ty
  scope : NodeId
  /-- Whether it is a state variable. -/
  state : Bool
  mutability : Mutability
  /-- The literal that a constant is set to. -/
  value : Option String

end

deriving instance Repr for Ty, Variable

instance : Inhabited Ty := ⟨.elementary ""⟩

/-- Whether a variable stands for a return value without a name. -/
def Variable.isReturn (var : Variable) : Bool :=
  var.name.toList.head? == some '<'

/-- Where the next value goes when values are put one after the other into storage. Slots are counted
without a bound. -/
structure Cursor where
  slot : Nat
  offset : Nat
deriving Repr, DecidableEq, Inhabited

namespace Cursor

def start : Cursor := ⟨0, 0⟩

/-- The place of a value of `width` bytes: a value that does not fit into the rest of the slot, and
one that is not packed at all, goes to the next slot. -/
def align (cursor : Cursor) (width : Nat) (reference : Bool) : Cursor :=
  if 32 < cursor.offset + width ∨ (reference ∧ 0 < cursor.offset) then ⟨cursor.slot + 1, 0⟩
  else cursor

/-- The end of a value that starts at the cursor. -/
def advance (cursor : Cursor) (width slots : Nat) (reference : Bool) : Cursor :=
  if 1 < slots ∨ reference then ⟨cursor.slot + slots, 0⟩
  else ⟨cursor.slot, cursor.offset + width⟩

/-- The slots in use, a partly filled one included. -/
def slots (cursor : Cursor) : Nat :=
  if 0 < cursor.offset then cursor.slot + 1 else cursor.slot

end Cursor

namespace Ty

def elementary? : Ty → Option Elementary
  | .elementary name => Elementary.ofName? name
  | _ => none

/-- Whether values of the type take whole slots instead of being packed. -/
def isReference : Ty → Bool
  | .elementary name =>
      match Elementary.ofName? name with
      | some .bytes | some .string => true
      | _ => false
  | .enum _ _ => false
  | _ => true

def isMapping : Ty → Bool
  | .mapping _ _ => true
  | _ => false

/-- The least width from `width` on that can tell `count` members apart, if it is reached within
the given number of steps. Shifts stop at 127 bits, past any count of 64 bits. -/
def enumWidthFrom (count : Nat) : Nat → Nat → Nat
  | 0, width => width
  | steps + 1, width =>
      if 1 <<< min (8 * width) 127 < count then enumWidthFrom count steps (width + 1) else width

def enumWidth (count : Nat) : Nat :=
  enumWidthFrom count 31 1

/-- The width of a packed value in bytes. -/
def bytes : Ty → Nat
  | .elementary name => ((Elementary.ofName? name).map Elementary.width).getD 32
  | .enum _ values => enumWidth values.length
  | _ => 32

/-- The largest number of slots that can be told. -/
def maxSlots : Nat := Text.maxNat64

mutual

/-- The number of storage slots that a value takes. -/
def slots : Ty → Nat
  | .struct _ members => max 1 (endOf members .start).slots
  | .array base (some length) =>
      if base.isReference then min (length * base.slots) maxSlots
      else
        let perSlot := 32 / max 1 base.bytes
        (length + perSlot - 1) / perSlot
  | _ => 1

/-- The cursor after members that are put down from a cursor on. Constants and immutables take no
place. -/
def endOf : List Variable → Cursor → Cursor
  | [], cursor => cursor
  | member :: members, cursor => endOf members (endOfOne member cursor)

def endOfOne : Variable → Cursor → Cursor
  | ⟨_, _, _, type, _, _, mutability, _⟩, cursor =>
      match mutability with
      | .mutable =>
          (cursor.align type.bytes type.isReference).advance type.bytes type.slots type.isReference
      | _ => cursor

end

/-- The text of a type. -/
def text : Ty → String
  | .elementary name => name
  | .array base (some length) => base.text ++ "[" ++ toString length ++ "]"
  | .array base none => base.text ++ "[]"
  | .mapping key value => "mapping(" ++ key.text ++ " => " ++ value.text ++ ")"
  | .struct name _ => "struct " ++ name
  | .enum name _ => "enum " ++ name

end Ty

end SolTrace
