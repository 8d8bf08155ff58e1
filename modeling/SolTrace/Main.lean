import SolTrace.CommandLine.Run
import Std.Time.DateTime.Timestamp
/-!
The program. It takes what a command looks at from the disk into a file tree, runs the command
there, and brings what has changed back to the disk.
-/
set_option autoImplicit false

namespace SolTrace.CommandLine

/-! ### Files -/

/-- Copies the file at a path into the tree. Files that are no text are left out. -/
def copyFile (tree : FileTree) (path : String) : IO FileTree := do
  let location := (← IO.currentDir) / path
  if ← location.isDir then
    return ((FileTree.createDirectories path).run.run tree).2
  if !(← location.pathExists) then
    return tree
  try
    return (tree.place? path (← IO.FS.readFile location)).getD tree
  catch _ =>
    return tree

/-- Copies the file at a path, or the directory there with the JSON files in it, and what lies on
the way, also on the way that directories open which are not there yet. -/
def copyPath (tree : FileTree) (path : String) : IO FileTree := do
  let onTheWay := FilePath.ancestors path ++ FilePath.ancestors (FilePath.simplify path)
  let tree ← onTheWay.foldlM copyFile tree
  let location := (← IO.currentDir) / path
  if !(← location.isDir) then
    return tree
  let names := (← location.readDir).toList.map fun entry => entry.fileName
  (names.filter (FilePath.hasExtension "json")).foldlM
    (fun tree name => copyFile tree (FilePath.join path name)) tree

def copyPaths (paths : List String) : IO FileTree := do
  let names := FilePath.names (← IO.currentDir).toString
  paths.foldlM copyPath (.empty (names.filter fun name => !name.isEmpty))

def diskPath (route : Route) : String :=
  "/" ++ "/".intercalate route

/-- Brings the differences between two trees to the disk. -/
def writeChanges (before after : FileTree) : IO Unit := do
  for (route, entry) in after.entries.toList do
    if before.entries[route]? != some entry then
      match entry with
      | .directory => IO.FS.createDirAll (diskPath route)
      | .file text => IO.FS.writeFile (diskPath route) text
  for route in before.entries.keys do
    if !after.entries.contains route then
      IO.FS.removeFile (diskPath route)

/-! ### Sessions -/

/-- A node that cannot be reached: what is not in the caches is not known. -/
def unreachable (url : String) : Provider where
  transaction _ := .error (.provider ("no connection to " ++ url))
  trace _ := .error (.provider ("no connection to " ++ url))
  code _ := .error (.provider ("no connection to " ++ url))
  storage _ _ _ := .error (.provider ("no connection to " ++ url))

def printLines (lines : List String) : IO Unit :=
  lines.forM IO.println

/-- Answers lines of input as they come. -/
partial def converse (view : View) (session : Session) (input : IO.FS.Stream) : IO Unit := do
  let line ← input.getLine
  if line.isEmpty then
    return
  let (lines, next) := respond view session line
  printLines lines
  match next with
  | some session => converse view session input
  | none => return

def showTransaction (command : TransactionCommand) (view : View) (session : Session) :
    IO Unit := do
  if command.interactive && !session.steps.isEmpty then
    IO.println greeting
    converse view session (← IO.getStdin)
  else
    printLines (showSession view false session [])

/-! ### Running -/

def report (failure : Failure) : IO UInt32 := do
  IO.eprint ("Error: \n" ++ failure.message)
  return 1

/-- Runs on a copy of the files that are looked at, and keeps the changes in any case. -/
def runOnDisk {α : Type} (paths : List String) (action : Run α) : IO (Except Failure α) := do
  let before ← copyPaths paths
  let (result, after) := action.run.run before
  writeChanges before after
  return result

def seconds : IO Nat := do
  return (← Std.Time.Timestamp.now).toSecondsSinceUnixEpoch.val.toNat

def execute (command : Command) : IO UInt32 := do
  match command with
  | .inspect paths =>
      match ← runOnDisk command.paths (inspect paths) with
      | .error failure => report failure
      | .ok lines =>
          printLines lines
          return 0
  | .transaction transaction =>
      let node := unreachable transaction.url
      match ← runOnDisk command.paths (openSession node (← seconds) transaction) with
      | .error failure => report failure
      | .ok (view, session) =>
          showTransaction transaction view session
          return 0

def environment : IO Environment := do
  return {
    rpcUrl := ← IO.getEnv "ETH_RPC_URL"
    cacheRoot := ← IO.getEnv "SDB_CACHE_ROOT"
    home := ← IO.getEnv "HOME" }

def usage : String :=
  "usage: soltrace tx HASH -a PATH.. [--vars] [-i] [-b FILE:LINE]..\n" ++
  "                   [--storage-nocache] [--no-cache | --cache-root DIR] [-r URL]\n" ++
  "       soltrace inspect -a PATH.."

def start (arguments : List String) : IO UInt32 := do
  match Command.ofArguments? (← environment) arguments with
  | some command => execute command
  | none =>
      IO.eprintln usage
      return 2

end SolTrace.CommandLine

def main (arguments : List String) : IO UInt32 :=
  SolTrace.CommandLine.start arguments
