import SolTrace.Text.Split
import Std.Data.ExtTreeMap
/-!
File trees: the texts of files by path, and the directories around them. A path is text; a tree
finds what it stands for by walking from the root, or from the working directory, name by name.
-/
set_option autoImplicit false

namespace SolTrace

namespace FilePath

/-- The names of a path, with the empty ones around its slashes. -/
def names (path : String) : List String :=
  (Text.split '/' path.toList).map String.ofList

def ofNames (names : List String) : String :=
  "/".intercalate names

/-- The path without its last name. -/
def parent (path : String) : String :=
  ofNames (names path).dropLast

/-- The paths of what lies on the way along a path, its end included. -/
def ancestors (path : String) : List String :=
  (List.range (names path).length).map fun n => ofNames ((names path).take (n + 1))

/-- The path where every `..` has taken back the name before it, as if that were a directory. -/
def simplify (path : String) : String :=
  let back := (names path).foldl (fun back name =>
    match name, back with
    | "..", [] => [".."]
    | "..", ".." :: _ => ".." :: back
    | "..", _ :: back => back
    | ".", back => back
    | name, back => name :: back) []
  ofNames back.reverse

/-- The number of bytes that a name may have. -/
def maxName : Nat := 255

/-- The number of bytes that a path may have. -/
def maxPath : Nat := 4095

def isAbsolute (path : String) : Bool :=
  path.toList.head? == some '/'

/-- The path below a directory; an absolute path stands for itself. -/
def join (directory path : String) : String :=
  if isAbsolute path then path
  else if directory.isEmpty || directory.toList.getLast? == some '/' then directory ++ path
  else directory ++ "/" ++ path

/-- Whether a file name ends in a dot and the given text, with something before the dot. -/
def hasExtension (extension name : String) : Bool :=
  match Text.splitLast? '.' name.toList with
  | some (stem, found) => !stem.isEmpty && found == extension.toList
  | none => false

end FilePath

/-- The names that lead from the root to a file or directory. -/
abbrev Route := List String

inductive FileEntry
  | directory
  | file (text : String)
deriving Repr, DecidableEq

/-- Why a path cannot be used. -/
inductive FileFault
  | notFound
  | fileExists
  | notDirectory
  | nameTooLong
  | nulCharacter
deriving Repr, DecidableEq

def FileFault.message : FileFault → String
  | .notFound => "No such file or directory (os error 2)"
  | .fileExists => "File exists (os error 17)"
  | .notDirectory => "Not a directory (os error 20)"
  | .nameTooLong => "File name too long (os error 36)"
  | .nulCharacter => "file name contained an unexpected NUL byte"

structure FileTree where
  entries : Std.ExtTreeMap Route FileEntry
  /-- Where relative paths start. -/
  workingDirectory : Route

namespace FileTree

/-- The tree that holds only the working directory. -/
def empty (workingDirectory : Route) : FileTree where
  entries := (List.range workingDirectory.length).foldl
    (fun entries n => entries.insert (workingDirectory.take (n + 1)) .directory) ∅
  workingDirectory

/-- What stands at the end of a route. The root is a directory. -/
def entryAt? (tree : FileTree) (route : Route) : Option FileEntry :=
  if route.isEmpty then some .directory else tree.entries[route]?

def isDirectoryAt (tree : FileTree) (route : Route) : Bool :=
  tree.entryAt? route == some .directory

def start (tree : FileTree) (path : String) : Route :=
  if FilePath.isAbsolute path then [] else tree.workingDirectory

/-- Follows names from a route on. Each of them needs a directory to stand in, and only the last
one need not be there. -/
def walk (tree : FileTree) : Route → List String → Except FileFault Route
  | route, [] => .ok route
  | route, name :: names =>
      match tree.entryAt? route with
      | none => .error .notFound
      | some (.file _) => .error .notDirectory
      | some .directory =>
          if name = "" ∨ name = "." then walk tree route names
          else if name = ".." then walk tree route.dropLast names
          else if FilePath.maxName < name.utf8ByteSize then .error .nameTooLong
          else walk tree (route ++ [name]) names

/-- The route of a path. The empty path has none. -/
def locate (tree : FileTree) (path : String) : Except FileFault Route :=
  if path.isEmpty then .error .notFound
  else if path.toList.contains '\x00' then .error .nulCharacter
  else if FilePath.maxPath < path.utf8ByteSize then .error .nameTooLong
  else tree.walk (tree.start path) (FilePath.names path)

def route? (tree : FileTree) (path : String) : Option Route :=
  (tree.locate path).toOption

def isDirectory (tree : FileTree) (path : String) : Bool :=
  (tree.route? path).any tree.isDirectoryAt

/-- The entry at a path, the root aside. -/
def find? (tree : FileTree) (path : String) : Option FileEntry :=
  (tree.route? path).bind fun route => tree.entries[route]?

/-- The text of the file at a path. -/
def read? (tree : FileTree) (path : String) : Option String :=
  match tree.find? path with
  | some (.file text) => some text
  | _ => none

/-- Whether there is a file or directory at a path. -/
def contains (tree : FileTree) (path : String) : Bool :=
  tree.isDirectory path || (tree.find? path).isSome

/-- The names in the directory at a path, in ascending order. -/
def list (tree : FileTree) (path : String) : List String :=
  match tree.route? path with
  | none => []
  | some directory =>
      tree.entries.keys.filterMap fun route =>
        if route.dropLast = directory then route.getLast? else none

/-- Writes the file at a path, if there is a directory for it and none in its place. -/
def write? (tree : FileTree) (path text : String) : Option FileTree :=
  match tree.route? path with
  | none => none
  | some route =>
      if tree.isDirectoryAt route then none
      else some { tree with entries := tree.entries.insert route (.file text) }

/-- Removes the file at a path, if there is one. -/
def remove (tree : FileTree) (path : String) : FileTree :=
  match tree.route? path with
  | none => tree
  | some route =>
      if tree.isDirectoryAt route then tree
      else { tree with entries := tree.entries.erase route }

/-! ### Creating directories -/

/-- A change of the files that may fail. What it changes before it fails stays changed. -/
abbrev Change := ExceptT FileFault (StateM FileTree)

/-- Creates a directory in one that is there. -/
def createDirectory (tree : FileTree) (path : String) : Except FileFault FileTree := do
  let route ← tree.locate path
  if (tree.entryAt? route).isSome then throw .fileExists
  return { tree with entries := tree.entries.insert route .directory }

/-- Creates a directory unless there is one. -/
def ensureDirectory (path : String) : Change Unit := do
  let tree ← get
  match tree.createDirectory path with
  | .ok tree => set tree
  | .error fault => unless tree.isDirectory path do throw fault

/-- Creates the directory at a path, whose names stand in reverse. The directories around it are
created first if the path leads through places where nothing is. -/
def ensureDirectories : List String → Change Unit
  | [] => pure ()
  | name :: around =>
      if name = "" ∨ name = "." then ensureDirectories around
      else
        let ensure := ensureDirectory (FilePath.ofNames (name :: around).reverse)
        tryCatch ensure fun fault =>
          if fault = .notFound then do
            ensureDirectories around
            ensure
          else throw fault

def createDirectories (path : String) : Change Unit :=
  ensureDirectories (FilePath.names path).reverse

/-- Writes a file and creates the directories that it needs. -/
def place? (tree : FileTree) (path text : String) : Option FileTree :=
  match (createDirectories (FilePath.parent path)).run.run tree with
  | (.ok (), tree) => tree.write? path text
  | (.error _, _) => none

end FileTree

end SolTrace
