import SolTrace.Cache
import SolTrace.Trace.Inputs
/-!
Transactions and traces in caches, by their hash, in front of a provider that is asked for what they
do not hold.
-/
set_option autoImplicit false

namespace SolTrace

structure ChainCache where
  transactions : Cache
  traces : Cache
deriving Repr, DecidableEq

namespace ChainCache

def disabled : ChainCache := ⟨.disabled, .disabled⟩

/-! ### Directories -/

/-- The root of the caches of a user, below the home directory. -/
def defaultRoot (home : String) : String :=
  FilePath.join (FilePath.join home ".sdb") "cache"

def chainDirectory (root : String) : String :=
  FilePath.join root "rpc"

def tracesDirectory (root : String) : String :=
  FilePath.join (chainDirectory root) "traces"

def transactionsDirectory (root : String) : String :=
  FilePath.join (chainDirectory root) "txs"

/-- The files that a transaction and its trace are kept in. -/
def files (root : String) (hash : Word) : List String :=
  [transactionsDirectory root, tracesDirectory root].filterMap fun directory =>
    Cache.file? ⟨some directory, none⟩ (hashText hash)

/-- The caches below a root. What they hold stays valid. -/
def inRoot (root : String) : FileTree.Change ChainCache := do
  let transactions ← Cache.inDirectory (transactionsDirectory root) none
  let traces ← Cache.inDirectory (tracesDirectory root) none
  return { transactions, traces }

/-! ### Asking -/

/-- A transaction from the cache or else from the provider. It is kept once it is mined. -/
def transaction (cache : ChainCache) (provider : Provider) (now : Nat) (hash : Word) :
    StateM FileTree (Except Error Transaction) := do
  match ← cache.transactions.load Transaction.shape Transaction.ofJson? now (hashText hash) with
  | some transaction => return .ok transaction
  | none =>
      let answer := provider.transaction hash
      match answer with
      | .ok transaction =>
          if transaction.block.isSome then
            let _ ← cache.transactions.save Transaction.toJson now (hashText hash) transaction
      | .error _ => pure ()
      return answer

/-- A trace from the cache or else from the provider. -/
def trace (cache : ChainCache) (provider : Provider) (now : Nat) (hash : Word) :
    StateM FileTree (Except Error Trace) := do
  match ← cache.traces.load Trace.shape Trace.ofJson? now (hashText hash) with
  | some trace => return .ok trace
  | none =>
      let answer := provider.trace hash
      match answer with
      | .ok trace =>
          let _ ← cache.traces.save Trace.toJson now (hashText hash) trace
      | .error _ => pure ()
      return answer

/-- The provider with what is known of one transaction. The trace is not asked for if there is no
transaction. -/
def provider (cache : ChainCache) (node : Provider) (now : Nat) (hash : Word) :
    StateM FileTree Provider := do
  let transaction ← cache.transaction node now hash
  let trace ← match transaction with
    | .ok _ => cache.trace node now hash
    | .error e => pure (.error e)
  return { node with
    transaction := fun other => if other = hash then transaction else node.transaction other
    trace := fun other => if other = hash then trace else node.trace other }

end ChainCache

end SolTrace
