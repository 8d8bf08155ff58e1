import SolTrace.Cache.Chain
import SolTrace.CommandLine.Arguments
/-!
The commands of the program: going through a transaction, and listing contracts. Arguments that
make no command are refused as a whole.
-/
set_option autoImplicit false

namespace SolTrace.CommandLine

/-- What a command takes from its environment. -/
structure Environment where
  rpcUrl : Option String
  cacheRoot : Option String
  home : Option String
deriving Repr

structure TransactionCommand where
  hash : Word
  artifacts : List String
  /-- Whether the variables are shown at every step. -/
  showVariables : Bool
  interactive : Bool
  /-- Breakpoints as they are written. -/
  breakpoints : List String
  /-- Whether the node is asked for all storage of deployed accounts. -/
  storageNocache : Bool
  url : String
  /-- The root of the caches, if any are used. -/
  cacheRoot : Option String
deriving Repr

inductive Command
  | transaction (command : TransactionCommand)
  | inspect (artifacts : List String)
deriving Repr

inductive OptionName
  | artifacts
  | showVariables
  | interactive
  | breakpoint
  | storageNocache
  | noCache
  | cacheRoot
  | rpcUrl
deriving Repr, DecidableEq

def artifactsForm : OptionForm OptionName := ⟨.artifacts, "artifacts", some 'a', true⟩

def transactionForms : List (OptionForm OptionName) :=
  [artifactsForm,
    ⟨.showVariables, "vars", none, false⟩,
    ⟨.interactive, "interactive", some 'i', false⟩,
    ⟨.breakpoint, "break", some 'b', true⟩,
    ⟨.storageNocache, "storage-nocache", none, false⟩,
    ⟨.noCache, "no-cache", none, false⟩,
    ⟨.cacheRoot, "cache-root", none, true⟩,
    ⟨.rpcUrl, "rpc-url", some 'r', true⟩]

def localNode : String := "http://localhost:8545"

/-- A hash of 32 bytes in hexadecimal text. -/
def hashOfText? (text : String) : Option Word :=
  ((Transaction.bytesOfText? text).filter fun bytes => bytes.length == 32).map Word.ofBytes

/-- The paths of artifacts. There is at least one, and none is empty. -/
def artifactPaths? (arguments : List (Argument OptionName)) : Option (List String) :=
  match Argument.values .artifacts arguments with
  | [] => none
  | paths => if paths.any String.isEmpty then none else some paths

/-- The root of the caches: none if they are switched off, else the one that is asked for, else the
one of the environment, else the one below the home directory. Caches that are switched off have no
root, not even in the environment. -/
def cacheRoot? (environment : Environment) (arguments : List (Argument OptionName)) :
    Option (Option String) := do
  let disabled ← Argument.flag? .noCache arguments
  let given ← Argument.single? .cacheRoot arguments
  match disabled, given <|> environment.cacheRoot with
  | true, some _ => none
  | true, none => some none
  | false, some root => if root.isEmpty then none else some (some root)
  | false, none => some (environment.home.map ChainCache.defaultRoot)

def transactionCommand? (environment : Environment) (arguments : List (Argument OptionName)) :
    Option TransactionCommand := do
  match Argument.operands arguments with
  | [hash] =>
      return {
        hash := ← hashOfText? hash
        artifacts := ← artifactPaths? arguments
        showVariables := ← Argument.flag? .showVariables arguments
        interactive := ← Argument.flag? .interactive arguments
        breakpoints := Argument.values .breakpoint arguments
        storageNocache := ← Argument.flag? .storageNocache arguments
        url := ((← Argument.single? .rpcUrl arguments) <|> environment.rpcUrl).getD localNode
        cacheRoot := ← cacheRoot? environment arguments }
  | _ => none

def inspectedPaths? (arguments : List (Argument OptionName)) : Option (List String) :=
  if (Argument.operands arguments).isEmpty then artifactPaths? arguments else none

namespace Command

/-- The files and directories that a command looks at. -/
def paths : Command → List String
  | .inspect artifacts => artifacts
  | .transaction command =>
      command.artifacts ++
        command.cacheRoot.elim [] fun root => ChainCache.files root command.hash

def ofArguments? (environment : Environment) : List String → Option Command
  | [] => none
  | name :: rest =>
      if name = "tx" ∨ name = "t" then do
        let arguments ← readArguments transactionForms rest
        return .transaction (← transactionCommand? environment arguments)
      else if name = "inspect" ∨ name = "i" then do
        let arguments ← readArguments [artifactsForm] rest
        return .inspect (← inspectedPaths? arguments)
      else none

end Command

end SolTrace.CommandLine
