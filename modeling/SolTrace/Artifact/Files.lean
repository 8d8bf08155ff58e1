import SolTrace.Artifact
import SolTrace.Error
import SolTrace.FileTree
import SolTrace.Json.Document
/-!
Artifacts in files: a file holds one artifact or an array of them, and a directory stands for its
JSON files in the order of their names.
-/
set_option autoImplicit false

namespace SolTrace.Artifact

def ofText? (text : String) : Option (List Artifact) := do
  allOfJson? (← Json.document? text)

def loadFile (tree : FileTree) (path : String) : Except Error (List Artifact) :=
  match tree.read? path with
  | none => .error .file
  | some text =>
      match ofText? text with
      | none => .error .json
      | some artifacts => .ok artifacts

/-- The files that a path stands for. Those of a directory are not looked for any deeper. -/
def filesAt (tree : FileTree) (path : String) : List String :=
  if tree.isDirectory path then
    ((tree.list path).filter (FilePath.hasExtension "json")).map (FilePath.join path)
  else [path]

def load (tree : FileTree) (path : String) : Except Error (List Artifact) := do
  return (← (filesAt tree path).mapM (loadFile tree)).flatten

end SolTrace.Artifact
