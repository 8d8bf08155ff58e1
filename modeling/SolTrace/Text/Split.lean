/-!
Splitting text at a separator. The fields and the separators between them make up the text.
-/
set_option autoImplicit false

namespace SolTrace.Text

/-- Puts a character in front of the first field. -/
def pushFirst (c : Char) : List (List Char) → List (List Char)
  | [] => [[c]]
  | field :: fields => (c :: field) :: fields

/-- The fields between separators; a text without a separator is one field. -/
def split (separator : Char) (text : List Char) : List (List Char) :=
  text.foldr (fun c fields => if c = separator then [] :: fields else pushFirst c fields) [[]]

@[simp]
theorem split_nil (separator : Char) : split separator [] = [[]] := rfl

theorem split_cons (separator c : Char) (text : List Char) :
    split separator (c :: text) =
      if c = separator then [] :: split separator text
      else pushFirst c (split separator text) := rfl

theorem split_ne_nil (separator : Char) (text : List Char) : split separator text ≠ [] := by
  cases text with
  | nil => simp
  | cons c text =>
      rw [split_cons]
      split
      · simp
      · cases split separator text <;> simp [pushFirst]

/-- The text before the first separator, and the text after it if there is one. -/
def splitFirst (separator : Char) (text : List Char) : List Char × Option (List Char) :=
  match text.span (· != separator) with
  | (before, []) => (before, none)
  | (before, _ :: after) => (before, some after)

/-- The text before the last separator and the text after it, if there is one. -/
def splitLast? (separator : Char) (text : List Char) : Option (List Char × List Char) :=
  match splitFirst separator text.reverse with
  | (_, none) => none
  | (after, some before) => some (before.reverse, after.reverse)

end SolTrace.Text
