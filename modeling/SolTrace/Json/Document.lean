import SolTrace.Json.Parser
/-!
Documents by their meaning. Of members with one key the last one counts, at the place of the first.
An object whose first key is reserved has no other member, and stands for the number or for the
document in a text.
-/
set_option autoImplicit false

namespace SolTrace.Json

/-- The key of an object that stands for the number in a text. -/
def numberKey : String := "$serde_json::private::Number"

/-- The key of an object that stands for the document in a text. -/
def documentKey : String := "$serde_json::private::RawValue"

/-- The number in a text. A zero without a fraction has no sign. -/
def number? (text : String) : Option Json :=
  match takeNumber text.toList with
  | some (digits, []) => some (.number (if digits = "-0" then "0" else digits))
  | _ => none

mutual

/-- The meaning of a document that is read as it is written, `document?` telling that of texts. -/
def resolveWith (document? : String → Option Json) : Json → Option Json
  | .number text => number? text
  | .array items => (resolveItems document? items).map .array
  | .object [] => some (.object [])
  | .object ((key, value) :: members) =>
      if key = numberKey then
        match value, members with
        | .string text, [] => number? text
        | _, _ => none
      else if key = documentKey then
        match value, members with
        | .string text, [] => document? text
        | _, _ => none
      else do
        let value ← resolveWith document? value
        (resolveMembers document? members [(key, value)]).map .object
  | json => some json

def resolveItems (document? : String → Option Json) : List Json → Option (List Json)
  | [] => some []
  | item :: items => do
      return (← resolveWith document? item) :: (← resolveItems document? items)

def resolveMembers (document? : String → Option Json) :
    List (String × Json) → List (String × Json) → Option (List (String × Json))
  | [], done => some done
  | (key, value) :: members, done => do
      let value ← resolveWith document? value
      resolveMembers document? members (setMember key value done)

end

/-- Reads a document with fewer than `fuel` texts inside of texts. A text is shorter than the one
that it stands in, so the length of the whole is enough. -/
def documentWithin : Nat → String → Option Json
  | 0, _ => none
  | fuel + 1, text => (parse? .whole text).bind (resolveWith (documentWithin fuel))

/-- The document in a text, by its meaning. -/
def document? (text : String) : Option Json :=
  documentWithin (text.length + 1) text

/-- The meaning of a document that is read as it is written. -/
def resolve? (json : Json) : Option Json :=
  resolveWith document? json

end SolTrace.Json
