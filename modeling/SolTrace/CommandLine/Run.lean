import SolTrace.Artifact.Files
import SolTrace.CommandLine.Breakpoint
import SolTrace.CommandLine.Command
import SolTrace.CommandLine.Stepping
import SolTrace.Debugger
/-!
Running commands on a file tree. The node and the clock are parameters, and what a run writes is
given as lines.
-/
set_option autoImplicit false

namespace SolTrace.CommandLine

/-- A run so far: it may fail, and it may change the files also if it fails. -/
abbrev Run := ExceptT Failure (StateM FileTree)

def failOn {α : Type} (result : Except Error α) : Run α :=
  match result with
  | .ok value => return value
  | .error error => throw (.debugger error)

/-- The artifacts at all paths, in the order of the paths. -/
def loadArtifacts (paths : List String) : Run (List Artifact) := do
  let tree ← get
  let loaded ← paths.mapM fun path =>
    match Artifact.load tree path with
    | .ok artifacts => pure artifacts
    | .error _ => throw (.artifacts path)
  return loaded.flatten

/-! ### Contracts -/

/-- What is shown of a contract. -/
def contractRow (contract : Contract) : List String :=
  [contract.name, contract.creation.id.short, contract.runtime.id.short,
    toString contract.slots,
    ", ".intercalate (contract.globals.map fun assignment => assignment.var.name)]

def contractTable (contracts : List Contract) : List String :=
  Text.table (["CONTRACT", "CREATION", "RUNTIME", "SLOTS", "STATE VARIABLES"] ::
    contracts.map contractRow)

def inspect (paths : List String) : Run (List String) := do
  let registry ← failOn (Debugger.registryOf (← loadArtifacts paths))
  return contractTable registry.toList

/-! ### Transactions -/

/-- Whether an address starts with a scheme: a letter, then letters, digits, `+`, `-` and `.` up to
a colon. Blanks in front and line breaks and tabs inside do not count. -/
def hasScheme (url : String) : Bool :=
  let text := (url.toList.dropWhile (· ≤ ' ')).filter fun c => c != '\t' && c != '\n' && c != '\r'
  let (scheme, rest) := text.span fun c => c.isAlphanum || c == '+' || c == '-' || c == '.'
  scheme.head?.any Char.isAlpha && rest.head? == some ':'

def checkUrl (url : String) : Run Unit := do
  unless hasScheme url do
    throw (.debugger (.provider
      ("invalid rpc url `" ++ url ++ "`: relative URL without a base")))

/-- The caches of a command. Their directories are created. -/
def openCache (root : Option String) : Run ChainCache := do
  match root with
  | none => return .disabled
  | some root =>
      let (cache, tree) := (ChainCache.inRoot root).run.run (← get)
      set tree
      match cache with
      | .ok cache => return cache
      | .error fault =>
          throw (.debugger (.provider ("cannot create cache: " ++ fault.message)))

/-- The session of a command and what it is shown with. -/
def openSession (node : Provider) (now : Nat) (command : TransactionCommand) :
    Run (View × Session) := do
  let artifacts ← loadArtifacts command.artifacts
  checkUrl command.url
  let cache ← openCache command.cacheRoot
  let debugger ← failOn (Debugger.ofArtifacts node command.storageNocache artifacts)
  let provider ← cache.provider node now command.hash
  let session ← failOn ({ debugger with provider }.debug command.hash)
  match readBreakpoints command.breakpoints with
  | .ok breakpoints =>
      return (⟨provider, command.showVariables⟩, session.setBreakpoints breakpoints)
  | .error failure => throw failure

def nothingExecuted : String :=
  "The transaction executed no known source code."

/-- What a session shows, the lines of input given. -/
def showSession (view : View) (interactive : Bool) (session : Session) (inputs : List String) :
    List String :=
  if session.steps.isEmpty then [nothingExecuted]
  else if interactive then greeting :: respondAll view session inputs
  else showAll view session

/-- The lines of a text. The last one need not be ended. -/
def linesOf (text : String) : List String :=
  let lines := (Text.split '\n' text.toList).map String.ofList
  if lines.getLast? == some "" then lines.dropLast else lines

/-- Runs a command. -/
def run (node : Provider) (now : Nat) (input : String) : Command → Run (List String)
  | .inspect paths => inspect paths
  | .transaction command => do
      let (view, session) ← openSession node now command
      return showSession view command.interactive session (linesOf input)

end SolTrace.CommandLine
