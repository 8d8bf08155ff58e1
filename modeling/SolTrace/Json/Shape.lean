import SolTrace.Json.Basic
/-!
Shapes of documents: which parts of a document are read. Members that a shape does not name are
skipped, so that nothing but their syntax matters.
-/
set_option autoImplicit false

namespace SolTrace.Json

inductive Shape
  /-- Documents that are read as they are. -/
  | whole
  /-- Arrays whose items have one shape. -/
  | list (item : Shape)
  /-- Records with these fields. -/
  | record (fields : List (String × Shape))
deriving Inhabited, Repr

namespace Shape

/-- Records whose fields are all read as they are. -/
def flat (names : List String) : Shape :=
  .record (names.map fun name => (name, .whole))

/-- The shape of an item of an array. A record that is an array has its fields in order. -/
def item : Shape → Nat → Shape
  | .whole, _ => .whole
  | .list item, _ => item
  | .record fields, index => (fields[index]?).elim .whole Prod.snd

/-- The shape of a member of an object, if the member is read. -/
def member? : Shape → String → Option Shape
  | .record fields, name => fields.lookup name
  | _, _ => some .whole

end Shape

end SolTrace.Json
