import SolTrace.Json.Basic
/-!
Reading records from JSON. A record is an object, or an array with the values of the fields in
their order; fields that are not asked for are ignored in objects and refused in arrays.
-/
set_option autoImplicit false

namespace SolTrace.Json

/-- The value of a field, if it is there once, or that it is missing. A repeated field is
refused. -/
def single? (members : List (String × Json)) (name : String) : Option (Option Json) :=
  match members.filter fun member => member.1 == name with
  | [] => some none
  | [member] => some (some member.2)
  | _ => none

/-- The values of the named fields, in the order of the names. -/
def fields? (names : List String) : Json → Option (List (Option Json))
  | .object members => names.mapM (single? members)
  | .array items =>
      if items.length ≤ names.length then
        some (items.map some ++ List.replicate (names.length - items.length) none)
      else none
  | _ => none

/-- The value of a field that may be missing or null. -/
def optional {α : Type} (read : Json → Option α) : Option Json → Option (Option α)
  | none => some none
  | some .null => some none
  | some json => (read json).map some

/-- The value of a field that may be missing. -/
def withDefault {α : Type} (read : Json → Option α) (value : α) : Option Json → Option α
  | none => some value
  | some json => read json

def list? {α : Type} (read : Json → Option α) (json : Json) : Option (List α) :=
  json.items?.bind (List.mapM read)

end SolTrace.Json
