import SolTrace.Proofs.Storage.Encoding
import SolTrace.State.Decode
/-!
Values in memory, as the compiler lays them out: value types take a word each, and what has members
or elements is pointed to. Where the parts are is left open, and parts may be shared.
-/
set_option autoImplicit false

namespace SolTrace

/-- What is asked of a value in memory: that it is in the compiler's format, or that it can be read
as well. Two things are in the format and are not read: an empty byte string whose length is past
the end of memory, where the zero slot may be, and a pointer to an internal function, which is at
the low end of its word. -/
inductive Demand
  | format
  | readable
deriving DecidableEq

namespace Elementary

/-- The values of a value type. -/
def HasWord : Elementary → Value → Prop
  | .function width, .fixedBytes data => data.length = width
  | .bytes, _ | .string, _ => False
  | type, value => type.Has value

/-- Whether values stand at the high end of their word. Pointers to external functions do, which
are an address with a selector, and pointers to internal functions do not. -/
def isHigh : Elementary → Bool
  | .fixedBytes _ => true
  | .function width => width = 24
  | _ => false

end Elementary

namespace Word

/-- The number at the high or at the low end of a word. -/
def part (word : Word) (high : Bool) (width : Nat) : Nat :=
  if high then word.toNat / 256 ^ (32 - width) else word.toNat % 256 ^ width

end Word

namespace Memory

open Decode (memoryWord maxLength)

variable (demand : Demand)

def HoldsElementary (type : Elementary) (value : Value) (word : Word) : Prop :=
  type.HasWord value ∧ word.part type.isHigh type.width = Encoding.number value type.width ∧
    (demand = .readable → ∀ width, type = .function width →
      word.part true width = Encoding.number value width)

/-- A word holds a value of a value type. -/
def Holds : Ty → Value → Word → Prop
  | .elementary name, value, word =>
      ∃ type, Elementary.ofName? name = some type ∧ HoldsElementary demand type value word
  | .enum _ values, .enum member, word =>
      values[word.part false (Ty.enumWidth values.length)]? = some member
  | _, _, _ => False

variable (memory : List UInt8)

/-- A byte string follows its length. -/
structure BytesAt (data : List UInt8) (start : Nat) : Prop where
  short : data.length ≤ maxLength
  inside : start ≤ memory.length
  room : data ≠ [] ∨ demand = .readable → start + 32 + data.length ≤ memory.length
  length : (memoryWord memory start).toNat = data.length
  data : (memory.drop (start + 32)).take data.length = data

/-- A value of an elementary type stands in memory at a position. -/
def ElementaryAt (name : String) (value : Value) (start : Nat) : Prop :=
  match Elementary.ofName? name, value with
  | some .bytes, .bytes data => BytesAt demand memory data start
  | some .string, .string text => BytesAt demand memory (Text.utf8 text) start
  | _, value =>
      start ≤ memory.length ∧ Holds demand (.elementary name) value (memoryWord memory start)

/-- A value type stands in a word itself, and of any other type there is a pointer in the word. -/
def InWord (type : Ty) (area : Nat → Prop) (holds : Word → Prop) (word : Word) : Prop :=
  if type.isReference then area word.toNat else holds word

mutual

/-- A value stands in memory at a position. -/
def Represents : Ty → Value → Nat → Prop
  | .elementary name, value, start => ElementaryAt demand memory name value start
  | .enum name values, value, start =>
      start ≤ memory.length ∧ Holds demand (.enum name values) value (memoryWord memory start)
  | .struct _ members, .struct fields, start =>
      start + 32 * fields.length ≤ memory.length ∧ MembersRepresented members fields start
  | .array base (some length), .array items, start =>
      items.length = length ∧ start + 32 * items.length ≤ memory.length ∧
        ∀ i item, items[i]? = some item →
          InWord base (Represents base item) (Holds demand base item)
            (memoryWord memory (start + 32 * i))
  | .array base none, .array items, start =>
      items.length ≤ maxLength ∧ start ≤ memory.length ∧
        (items ≠ [] → start + 32 + 32 * items.length ≤ memory.length) ∧
        (memoryWord memory start).toNat = items.length ∧
        ∀ i item, items[i]? = some item →
          InWord base (Represents base item) (Holds demand base item)
            (memoryWord memory (start + 32 + 32 * i))
  | _, _, _ => False

/-- The members of a struct stand in a word each. Mappings have none. -/
def MembersRepresented : List Variable → List (String × Value) → Nat → Prop
  | [], fields, _ => fields = []
  | ⟨_, name, _, type, _, _, _, _⟩ :: members, fields, position =>
      if type.isMapping then MembersRepresented members fields position
      else
        match fields with
        | [] => False
        | (field, value) :: fields =>
            field = name ∧
              InWord type (Represents type value) (Holds demand type value)
                (memoryWord memory position) ∧
              MembersRepresented members fields (position + 32)

end

variable {demand memory}

/-- What stands in memory starts in it or right behind it. -/
theorem Represents.inside {type : Ty} {value : Value} {start : Nat}
    (represents : Represents demand memory type value start) : start ≤ memory.length := by
  cases type with
  | elementary name =>
      have standing : ElementaryAt demand memory name value start := represents
      unfold ElementaryAt at standing
      split at standing
      · exact standing.inside
      · exact standing.inside
      · exact standing.1
  | enum name values => exact represents.1
  | mapping key value => exact represents.elim
  | struct name members =>
      cases value with
      | struct fields => exact Nat.le_trans (Nat.le_add_right _ _) represents.1
      | _ => exact represents.elim
  | array base length =>
      cases length <;> cases value <;> try exact represents.elim
      · exact represents.2.1
      · exact Nat.le_trans (Nat.le_add_right _ _) represents.2.1

end Memory

end SolTrace
