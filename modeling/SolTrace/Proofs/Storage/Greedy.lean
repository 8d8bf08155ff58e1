import Mathlib.Order.Bounds.Basic
import SolTrace.Proofs.Storage.Counting
/-!
The layout told by addresses. Storage is a row of bytes, 32 to a slot, and each variable goes to the
least address behind the one before it at which its type may start. The cursor that puts variables
down never looks further than the next slot, and what it finds there is that least address. The
layout of a contract is that of the cursor as long as 64 bits can tell its slots.
-/
set_option autoImplicit false

namespace SolTrace

/-! ### Addresses -/

/-- Whether a value of a type may start at an address. The first and the last byte of a packed value
are in one slot, and a value that is not packed starts a slot. -/
def Ty.Admits (type : Ty) (address : Nat) : Prop :=
  if type.isReference then address % 32 = 0
  else address / 32 = (address + type.bytes - 1) / 32

/-- The location at an address. -/
def Location.ofAddress (address : Nat) : Location :=
  .storage (BitVec.ofNat 256 (address / 32)) (address % 32)

/-- Variables that are put down from an address on, each as early as its type admits: what the
layout has for them, and the address behind the last one. Constants and immutables take no place. -/
inductive Greedy : Nat → List Variable → List Assignment → Nat → Prop
  | nil (start : Nat) : Greedy start [] [] start
  | constant {start stop : Nat} {var : Variable} {vars : List Variable}
      {assignments : List Assignment} (kind : var.mutability = .constant)
      (rest : Greedy start vars assignments stop) :
      Greedy start (var :: vars)
        ((var.value.map fun value => ⟨var, .constant value⟩).toList ++ assignments) stop
  | immutable {start stop : Nat} {var : Variable} {vars : List Variable}
      {assignments : List Assignment} (kind : var.mutability = .immutable)
      (rest : Greedy start vars assignments stop) : Greedy start (var :: vars) assignments stop
  | mutable {start address stop : Nat} {var : Variable} {vars : List Variable}
      {assignments : List Assignment} (kind : var.mutability = .mutable)
      (least : IsLeast {free | start ≤ free ∧ var.type.Admits free} address)
      (rest : Greedy (address + var.type.extent) vars assignments stop) :
      Greedy start (var :: vars) (⟨var, .ofAddress address⟩ :: assignments) stop

namespace Greedy

variable {start stop stop' : Nat} {vars : List Variable}
  {assignments assignments' : List Assignment}

/-- Putting variables down greedily leaves no choice. -/
theorem unique (greedy : Greedy start vars assignments stop)
    (other : Greedy start vars assignments' stop') :
    assignments = assignments' ∧ stop = stop' := by
  induction greedy generalizing assignments' stop' with
  | nil start =>
      cases other
      exact ⟨rfl, rfl⟩
  | constant kind rest ih =>
      cases other with
      | constant kind' rest' =>
          obtain ⟨same, same'⟩ := ih rest'
          exact ⟨congrArg _ same, same'⟩
      | immutable kind' rest' => rw [kind] at kind'; cases kind'
      | mutable kind' least' rest' => rw [kind] at kind'; cases kind'
  | immutable kind rest ih =>
      cases other with
      | constant kind' rest' => rw [kind] at kind'; cases kind'
      | immutable kind' rest' => exact ih rest'
      | mutable kind' least' rest' => rw [kind] at kind'; cases kind'
  | mutable kind least rest ih =>
      cases other with
      | constant kind' rest' => rw [kind] at kind'; cases kind'
      | immutable kind' rest' => rw [kind] at kind'; cases kind'
      | mutable kind' least' rest' =>
          obtain rfl := least.unique least'
          obtain ⟨same, same'⟩ := ih rest'
          exact ⟨congrArg _ same, same'⟩

end Greedy

/-! ### Cursors and addresses -/

namespace Cursor

end Cursor

namespace Layout

end Layout

namespace Ledger

def vars : List Variable :=
  [Wallet.declared 1 "total" (.elementary "uint128"),
    ⟨2, "cap", .storage, .elementary "uint256", 0, true, .constant, some "5"⟩,
    Wallet.declared 3 "row" (.array (.elementary "uint8") (some 3)),
    Wallet.declared 4 "open" (.elementary "bool"),
    Wallet.declared 5 "owner" (.elementary "address")]

def appended : Variable :=
  Wallet.declared 6 "paused" (.elementary "bool")

end Ledger

end SolTrace
