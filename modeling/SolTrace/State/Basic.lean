import SolTrace.Trace.Inputs
import SolTrace.Trace.Step
/-!
The state of the machine at a step, as values are decoded from it. Storage that the trace does not
report is asked for from the chain, once for each slot as long as the account stays the same.
-/
set_option autoImplicit false

namespace SolTrace

/-- A read of a storage slot that reached the chain. -/
structure StorageRead where
  address : Address
  slot : Word
  block : Nat
deriving Repr, DecidableEq

structure State where
  /-- The block whose final storage comes before the transaction. -/
  block : Nat
  /-- Whether the chain is asked for every slot of a deployed account. -/
  nocache : Bool
  snapshot : Snapshot
  /-- The account of the applied step. -/
  address : Option ContextAddress
  /-- What the chain has answered for that account. -/
  cache : Storage
  /-- The reads that reached the chain, the last one first. -/
  reads : List StorageRead

/-- A computation that may fail but keeps what it has read by then. -/
abbrev Decoder := ExceptT Error (StateM State)

def Decoder.lift {α : Type} (result : Except Error α) : Decoder α :=
  ExceptT.mk (pure result)

namespace State

def new (block : Nat) (nocache : Bool) : State :=
  ⟨block, nocache, .empty, none, ∅, []⟩

/-- Moves on to the snapshot of an account. Answers for another account are forgotten. -/
def apply (state : State) (address : ContextAddress) (snapshot : Snapshot) : State :=
  { state with
    snapshot
    address := some address
    cache := if state.address = some address then state.cache else ∅ }

def applyStep (state : State) (step : Step) : State :=
  state.apply step.address step.snapshot

/-- The word at a position of the stack, counted from the bottom. -/
def stackWord (state : State) (position : Nat) : Except Error Word :=
  match state.snapshot.stack[position]? with
  | some word => .ok word
  | none => .error (.decode (.stackPosition position state.snapshot.stack.length))

/-- Asks the chain for a slot. -/
def ask (provider : Provider) (address : Address) (slot : Word) : Decoder Word := do
  let state ← get
  set { state with reads := ⟨address, slot, state.block⟩ :: state.reads }
  Decoder.lift (provider.storage address slot state.block)

/-- The word in a storage slot of the applied step. Nothing of a contract that is being created is
on the chain yet. -/
def readSlot (provider : Provider) (slot : Word) : Decoder Word := do
  let state ← get
  match state.address with
  | none => throw (.decode .noStep)
  | some address =>
      match state.nocache, address.address? with
      | true, some account => ask provider account slot
      | _, account =>
          match state.snapshot.storage[slot]?, account with
          | some word, _ => return word
          | none, none => return 0
          | none, some account =>
              match state.cache[slot]? with
              | some word => return word
              | none => do
                  let word ← ask provider account slot
                  modify fun state => { state with cache := state.cache.insert slot word }
                  return word

end State

end SolTrace
