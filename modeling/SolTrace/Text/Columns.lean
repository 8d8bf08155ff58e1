import SolTrace.Text.Blank
/-!
Columns: text padded to a width in characters, and tables whose columns are as wide as their
longest cell in bytes.
-/
set_option autoImplicit false

namespace SolTrace.Text

/-- The blanks that a text lacks to a width. -/
def padding (width : Nat) (text : String) : String :=
  String.ofList (List.replicate (width - text.length) ' ')

def alignLeft (width : Nat) (text : String) : String :=
  text ++ padding width text

def alignRight (width : Nat) (text : String) : String :=
  padding width text ++ text

/-- The width that each column of the first row needs. -/
def columnWidths : List (List String) → List Nat
  | [] => []
  | first :: rows =>
      rows.foldl (fun widths row => List.zipWith max widths (row.map String.utf8ByteSize))
        (first.map String.utf8ByteSize)

/-- The line of a row. Columns stand two blanks apart, and no line ends in blanks. -/
def tableLine (widths : List Nat) (row : List String) : String :=
  String.ofList (trimEnd ("  ".intercalate (List.zipWith alignLeft widths row)).toList)

def table (rows : List (List String)) : List String :=
  rows.map (tableLine (columnWidths rows))

end SolTrace.Text
