import SolTrace.Text.Integer
/-!
JSON documents. Members stand in document order and may repeat, and a number is kept as it is
written, so that an integer can be told from a number with a fraction or exponent.
-/
set_option autoImplicit false

namespace SolTrace

inductive Json
  | null
  | bool (value : Bool)
  | number (text : String)
  | string (value : String)
  | array (items : List Json)
  | object (members : List (String × Json))
deriving Inhabited, Repr

namespace Json

def nat (n : Nat) : Json :=
  .number (toString n)

def int (n : Int) : Json :=
  .number (toString n)

def string? : Json → Option String
  | .string value => some value
  | _ => none

def bool? : Json → Option Bool
  | .bool value => some value
  | _ => none

def items? : Json → Option (List Json)
  | .array items => some items
  | _ => none

def members? : Json → Option (List (String × Json))
  | .object members => some members
  | _ => none

/-- A 64-bit unsigned integer. -/
def nat64? : Json → Option Nat
  | .number text => Text.nat64? text
  | _ => none

/-- A 64-bit signed integer. -/
def int64? : Json → Option Int
  | .number text => Text.int64? text
  | _ => none

def get? (json : Json) (key : String) : Option Json :=
  json.members?.bind (List.lookup key)

/-- Sets a member: the first one with the key keeps its place, a new one goes to the end. -/
def setMember (key : String) (value : Json) : List (String × Json) → List (String × Json)
  | [] => [(key, value)]
  | (k, v) :: rest =>
      if k = key then (k, value) :: rest else (k, v) :: setMember key value rest

end Json

end SolTrace
