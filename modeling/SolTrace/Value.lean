import SolTrace.Address
/-!
Values: what a variable is decoded to, and the one line of text that it is shown by.
-/
set_option autoImplicit false

namespace SolTrace

inductive Value
  | bool (value : Bool)
  | uint (value : Word)
  | int (value : Int)
  | address (value : Address)
  | string (value : String)
  | bytes (value : List UInt8)
  /-- Bytes of a fixed number, or a pointer to a function. -/
  | fixedBytes (value : List UInt8)
  /-- The name of a member of an enum. -/
  | enum (member : String)
  /-- A number that no member of an enum has. -/
  | invalid
  | array (items : List Value)
  | struct (members : List (String × Value))
  /-- Mappings cannot be listed, as their keys are not known. -/
  | mapping
  /-- The literal of a constant. -/
  | constant (value : String)
  /-- The value could not be decoded. -/
  | undefined
deriving Repr, Inhabited, BEq

namespace Value

mutual

def text : Value → String
  | .bool true => "true"
  | .bool false => "false"
  | .uint value => toString value.toNat
  | .int value => toString value
  | .address value => value.checksum
  | .string value => value
  | .bytes value | .fixedBytes value => Hex.encode0x value
  | .enum member => member
  | .invalid => "INVALID"
  | .array items => "[" ++ ", ".intercalate (itemTexts items) ++ "]"
  | .struct members => "\x7b " ++ ", ".intercalate (memberTexts members) ++ " \x7d"
  | .mapping => "mapping"
  | .constant value => value
  | .undefined => "undefined"

def itemTexts : List Value → List String
  | [] => []
  | item :: items => item.text :: itemTexts items

def memberTexts : List (String × Value) → List String
  | [] => []
  | (name, value) :: members => (name ++ ": " ++ value.text) :: memberTexts members

end

end Value

end SolTrace
