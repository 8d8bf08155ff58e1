import SolTrace.Proofs.Storage.Reading
/-!
Agreement of two runs of the decoder, on different states and against different chains: if reads of
slots agree, so does every value that is decoded from them.
-/
set_option autoImplicit false

namespace SolTrace

/-- On states that are related both decoders give the same result, and leave related states. -/
def Decoder.Agree {α : Type} (related : State → State → Prop) (left right : Decoder α) : Prop :=
  ∀ first second : State, related first second →
    (left.run.run first).1 = (right.run.run second).1 ∧
      related (left.run.run first).2 (right.run.run second).2

namespace Decoder.Agree

variable {α β : Type} {related : State → State → Prop}

theorem pure (value : α) : Agree related (Pure.pure value) (Pure.pure value) :=
  fun _ _ holds => ⟨rfl, holds⟩

theorem lift (result : Except Error α) :
    Agree related (Decoder.lift result) (Decoder.lift result) :=
  fun _ _ holds => ⟨rfl, holds⟩

theorem throw (error : Error) :
    Agree related (MonadExcept.throw error : Decoder α) (MonadExcept.throw error) :=
  fun _ _ holds => ⟨rfl, holds⟩

theorem bind {left right : Decoder α} {next after : α → Decoder β}
    (first : Agree related left right) (rest : ∀ value, Agree related (next value) (after value)) :
    Agree related (left >>= next) (right >>= after) := by
  intro one other holds
  obtain ⟨same, between⟩ := first one other holds
  rw [run_bind, run_bind]
  cases one' : left.run.run one with
  | mk result one =>
      cases other' : right.run.run other with
      | mk given other =>
          rw [one', other'] at same between
          have same : result = given := same
          subst same
          cases result with
          | error error => exact ⟨rfl, between⟩
          | ok value => exact rest value one other between

/-- A decoder may look at what the related states have in common. -/
theorem get_bind {γ : Type} (view : State → γ) (next : γ → Decoder α) (after : γ → Decoder α)
    (common : ∀ first second, related first second → view first = view second)
    (rest : ∀ seen, Agree related (next seen) (after seen)) :
    Agree related (get >>= fun state => next (view state))
      (get >>= fun state => after (view state)) := by
  intro first second holds
  rw [run_get_bind, run_get_bind, common first second holds]
  exact rest (view second) first second holds

theorem mapM {γ : Type} (items : List γ) (left right : γ → Decoder α)
    (each : ∀ item, Agree related (left item) (right item)) :
    Agree related (items.mapM left) (items.mapM right) := by
  induction items with
  | nil => exact pure []
  | cons item items ih =>
      rw [List.mapM_cons, List.mapM_cons]
      exact (each item).bind fun _ => ih.bind fun _ => pure _

end Decoder.Agree

/-! ### Decoding -/

section

open Decoder (Agree)

variable {related : State → State → Prop} {left right : Provider}

namespace Decode

theorem storageBytes_agree (slot : Word)
    (reads : ∀ slot, Agree related (State.readSlot left slot) (State.readSlot right slot)) :
    Agree related (storageBytes left slot) (storageBytes right slot) := by
  refine (reads slot).bind fun word => ?_
  by_cases short : word.toNat % 2 = 0
  · simp only [if_pos short]
    by_cases long : 31 < word.toNat % 256 / 2
    · simp only [if_pos long]
      exact Agree.throw _
    · simp only [if_neg long]
      exact Agree.pure _
  · simp only [if_neg short]
    refine (Agree.lift _).bind fun length => ?_
    exact (Agree.mapM _ _ _ fun _ => reads _).bind fun _ => Agree.pure _

theorem ofSlot_agree (type : Ty) (slot : Word) (offset : Nat)
    (reads : ∀ slot, Agree related (State.readSlot left slot) (State.readSlot right slot)) :
    Agree related (ofSlot left type slot offset) (ofSlot right type slot offset) := by
  unfold ofSlot
  split
  · exact (storageBytes_agree slot reads).bind fun _ => Agree.pure _
  · exact (storageBytes_agree slot reads).bind fun _ => Agree.pure _
  · split
    · exact Agree.throw _
    · exact (reads slot).bind fun _ => Agree.lift _

theorem storageElements_agree (slot : Word) (fixed : Option Nat)
    (reads : ∀ slot, Agree related (State.readSlot left slot) (State.readSlot right slot)) :
    Agree related (storageElements left slot fixed) (storageElements right slot fixed) := by
  cases fixed with
  | some count => exact Agree.pure _
  | none => exact (reads slot).bind fun _ => (Agree.lift _).bind fun _ => Agree.pure _

theorem elementsFrom_agree (base : Ty) (slot : Word) (one other : Word → Nat → Decoder Value)
    (each : ∀ slot offset, Agree related (one slot offset) (other slot offset)) (count : Nat) :
    ∀ cursor read, Agree related (elementsFrom base slot one count cursor read)
      (elementsFrom base slot other count cursor read) := by
  induction count with
  | zero => exact fun _ read => Agree.pure read.reverse
  | succ count ih => exact fun cursor _ => (each _ _).bind fun _ => ih _ _

theorem membersOfStorage_agree (slot : Word) (members : List Variable)
    (each : ∀ member ∈ members, ∀ slot offset,
      Agree related (ofStorage left member.type slot offset)
        (ofStorage right member.type slot offset)) :
    ∀ cursor, Agree related (membersOfStorage left slot members cursor)
      (membersOfStorage right slot members cursor) := by
  induction members with
  | nil => exact fun _ => Agree.pure []
  | cons member members ih =>
      intro cursor
      have first := each member List.mem_cons_self
      have rest := ih fun other inside => each other (List.mem_cons_of_mem _ inside)
      obtain ⟨id, name, location, type, scope, state, mutability, literal⟩ := member
      simp only [membersOfStorage]
      cases mutability with
      | mutable => exact (first _ _).bind fun _ => (rest _).bind fun _ => Agree.pure _
      | immutable => exact rest cursor
      | constant =>
          cases literal with
          | none => exact rest cursor
          | some literal => exact (rest cursor).bind fun _ => Agree.pure _

theorem ofStorage_agree (type : Ty)
    (reads : ∀ slot, Agree related (State.readSlot left slot) (State.readSlot right slot)) :
    ∀ slot offset, Agree related (ofStorage left type slot offset)
      (ofStorage right type slot offset) := by
  induction type using Ty.induction with
  | elementary name =>
      intro slot offset
      simp only [ofStorage]
      exact ofSlot_agree _ slot offset reads
  | enum name values =>
      intro slot offset
      simp only [ofStorage]
      exact ofSlot_agree _ slot offset reads
  | mapping key value =>
      intro slot offset
      simp only [ofStorage]
      exact Agree.pure _
  | struct name members each =>
      intro slot offset
      simp only [ofStorage]
      exact (membersOfStorage_agree slot members each _).bind fun _ => Agree.pure _
  | array base length each =>
      intro slot offset
      simp only [ofStorage]
      refine (storageElements_agree slot length reads).bind fun found => ?_
      exact (elementsFrom_agree base _ _ _ each _ _ _).bind fun _ => Agree.pure _

end Decode

/-- Values agree if stack and memory are the same and reads of slots agree. -/
theorem State.decode_agree (assignment : Assignment)
    (snapshots : ∀ first second, related first second → first.snapshot = second.snapshot)
    (reads : ∀ slot, Agree related (State.readSlot left slot) (State.readSlot right slot)) :
    Agree related (State.decode left assignment) (State.decode right assignment) := by
  obtain ⟨var, location⟩ := assignment
  cases location with
  | constant value => exact Agree.pure _
  | storage slot offset => exact Decode.ofStorage_agree var.type reads slot offset
  | memory position =>
      let found (state : State) : Except Error Value := do
        Decode.ofMemory state.snapshot.memory var.type
          (← Decode.pointer (← state.stackWord position))
      have common : ∀ first second, related first second → found first = found second := by
        intro first second holds
        simp only [found, State.stackWord, snapshots first second holds]
      exact Agree.get_bind found Decoder.lift Decoder.lift common Agree.lift
  | stack position =>
      have common : ∀ first second : State, related first second →
          first.stackWord position = second.stackWord position := by
        intro first second holds
        simp only [State.stackWord, snapshots first second holds]
      refine Agree.get_bind (fun state => state.stackWord position)
        (fun word => Decoder.lift word >>= _) (fun word => Decoder.lift word >>= _) common
        fun found => (Agree.lift found).bind fun word => ?_
      cases var.location with
      | calldata => exact Agree.pure _
      | memory => exact Agree.lift _
      | stack => exact Agree.lift _
      | storage =>
          by_cases reference : var.type.isReference
          · simp only [if_pos reference]
            exact Decode.ofStorage_agree var.type reads word 0
          · simp only [if_neg reference]
            exact Agree.lift _

end

end SolTrace
