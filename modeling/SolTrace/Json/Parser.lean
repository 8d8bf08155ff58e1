import SolTrace.Json.Shape
import SolTrace.Json.Token
/-!
Reading JSON text by a shape. A document is one value between blanks. What is read nests less than
128 deep; what is skipped may nest to any depth.
-/
set_option autoImplicit false

namespace SolTrace.Json

mutual

/-- Skips a value. The fuel bounds the steps inwards and onwards. A value takes no more of them than
it has characters, so the length of the text is enough. -/
def skipValue : Nat → List Char → Option (List Char)
  | 0, _ => none
  | _ + 1, 'n' :: 'u' :: 'l' :: 'l' :: rest => some rest
  | _ + 1, 't' :: 'r' :: 'u' :: 'e' :: rest => some rest
  | _ + 1, 'f' :: 'a' :: 'l' :: 's' :: 'e' :: rest => some rest
  | _ + 1, '"' :: rest => skipString rest
  | fuel + 1, '[' :: rest =>
      match skipSpace rest with
      | ']' :: rest => some rest
      | rest => skipItems fuel rest
  | fuel + 1, '{' :: rest =>
      match skipSpace rest with
      | '}' :: rest => some rest
      | rest => skipMembers fuel rest
  | _ + 1, text => (takeNumber text).map Prod.snd

def skipItems : Nat → List Char → Option (List Char)
  | 0, _ => none
  | fuel + 1, text =>
      match skipValue fuel (skipSpace text) with
      | none => none
      | some rest =>
          match skipSpace rest with
          | ',' :: rest => skipItems fuel rest
          | ']' :: rest => some rest
          | _ => none

def skipMembers : Nat → List Char → Option (List Char)
  | 0, _ => none
  | fuel + 1, text =>
      match skipSpace text with
      | '"' :: rest =>
          match (skipString rest).map skipSpace with
          | some (':' :: rest) =>
              match skipValue fuel (skipSpace rest) with
              | none => none
              | some rest =>
                  match skipSpace rest with
                  | ',' :: rest => skipMembers fuel rest
                  | '}' :: rest => some rest
                  | _ => none
          | _ => none
      | _ => none

end

/-- Reads items after an opening bracket, the one at each index by `item`. -/
def takeItems (item : Nat → List Char → Option (Json × List Char)) :
    Nat → Nat → List Json → List Char → Option (List Json × List Char)
  | 0, _, _, _ => none
  | fuel + 1, index, read, text =>
      match item index (skipSpace text) with
      | none => none
      | some (value, rest) =>
          match skipSpace rest with
          | ',' :: rest => takeItems item fuel (index + 1) (value :: read) rest
          | ']' :: rest => some ((value :: read).reverse, rest)
          | _ => none

/-- Reads members after an opening brace, the value of each key by `member`, or skips it. -/
def takeMembers (length : Nat) (member : String → Option (List Char → Option (Json × List Char))) :
    Nat → List (String × Json) → List Char → Option (List (String × Json) × List Char)
  | 0, _, _ => none
  | fuel + 1, read, text =>
      match takeQuoted length (skipSpace text) with
      | none => none
      | some (key, rest) =>
          match skipSpace rest with
          | ':' :: rest =>
              let next :=
                match member key with
                | some value =>
                    (value (skipSpace rest)).map fun (json, rest) => ((key, json) :: read, rest)
                | none => (skipValue length (skipSpace rest)).map fun rest => (read, rest)
              match next with
              | none => none
              | some (read, rest) =>
                  match skipSpace rest with
                  | ',' :: rest => takeMembers length member fuel read rest
                  | '}' :: rest => some (read.reverse, rest)
                  | _ => none
          | _ => none

/-- Reads a value that may hold fewer than `depth` levels of arrays and objects, in a document of
the given length. -/
def takeValue (length : Nat) : Nat → Shape → List Char → Option (Json × List Char)
  | _, _, 'n' :: 'u' :: 'l' :: 'l' :: rest => some (.null, rest)
  | _, _, 't' :: 'r' :: 'u' :: 'e' :: rest => some (.bool true, rest)
  | _, _, 'f' :: 'a' :: 'l' :: 's' :: 'e' :: rest => some (.bool false, rest)
  | _, _, '"' :: rest => (takeString length [] rest).map fun (text, rest) => (.string text, rest)
  | depth + 2, shape, '[' :: rest =>
      match skipSpace rest with
      | ']' :: rest => some (.array [], rest)
      | rest =>
          let item (index : Nat) := takeValue length (depth + 1) (shape.item index)
          (takeItems item length 0 [] rest).map fun (items, rest) => (.array items, rest)
  | depth + 2, shape, '{' :: rest =>
      match skipSpace rest with
      | '}' :: rest => some (.object [], rest)
      | rest =>
          let member (key : String) := (shape.member? key).map (takeValue length (depth + 1))
          (takeMembers length member length [] rest).map fun (members, rest) =>
            (.object members, rest)
  | _, _, text => (takeNumber text).map fun (text, rest) => (.number text, rest)

/-- Reads the parts of a document that its shape names, repeated members included. -/
def parse? (shape : Shape) (text : String) : Option Json :=
  let text := text.toList
  match takeValue text.length 128 shape (skipSpace text) with
  | some (value, rest) => if (skipSpace rest).isEmpty then some value else none
  | none => none

end SolTrace.Json
