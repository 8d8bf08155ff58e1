import SolTrace.Trace.StructLog
import SolTrace.Trace.Transaction
/-!
What a trace is read from: the transaction, its trace, and the code of the accounts that it calls.
A provider answers for the chain.
-/
set_option autoImplicit false

namespace SolTrace

structure Provider where
  transaction : Word → Except Error Transaction
  trace : Word → Except Error Trace
  /-- The code of an account as hexadecimal text, empty for accounts without code. -/
  code : Address → Except Error String
  /-- The word in a storage slot of an account after a block. -/
  storage : Address → Word → Nat → Except Error Word

structure TraceInputs where
  transaction : Transaction
  trace : Trace
  codes : Std.ExtTreeMap Address String

namespace TraceInputs

/-- The accounts that are called: the target of the transaction, then those of its message calls. -/
def targets (transaction : Transaction) (trace : Trace) : List Address :=
  transaction.target?.toList ++
    (trace.logs.filter StructLog.isCall).filterMap fun log => (log.peek? 1).map Address.ofWord

/-- Asks for the code of each account that is not known yet. -/
def fetchCodes (provider : Provider) (codes : Std.ExtTreeMap Address String)
    (accounts : List Address) : Except Error (Std.ExtTreeMap Address String) :=
  accounts.foldlM (fun codes account =>
    if codes.contains account then .ok codes
    else do return codes.insert account (← provider.code account)) codes

def fetch (provider : Provider) (hash : Word) : Except Error TraceInputs := do
  let transaction ← provider.transaction hash
  let trace ← provider.trace hash
  let codes ← fetchCodes provider ∅ (targets transaction trace)
  return { transaction, trace, codes }

end TraceInputs

end SolTrace
