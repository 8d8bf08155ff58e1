import SolTrace.Proofs.Storage.Encoding
/-!
Reading storage: what a decoder answers when every slot has a word of a fixed storage in it,
whether the word comes from the trace, from the chain or from an earlier answer.
-/
set_option autoImplicit false

namespace SolTrace

/-- Every read of a slot answers with the word that the storage has there. -/
def State.Sees (provider : Provider) (view : Word → Word) (state : State) : Prop :=
  ∀ slot, ((State.readSlot provider slot).run.run state).1 = .ok (view slot)

/-- On every state that sees the storage, the decoder answers with the value, and the state goes on
to see the storage. -/
def Decoder.Reads {α : Type} (provider : Provider) (view : Word → Word) (decoder : Decoder α)
    (value : α) : Prop :=
  ∀ state : State, state.Sees provider view →
    ∃ after : State, decoder.run.run state = (.ok value, after) ∧ after.Sees provider view

/-! ### Running decoders -/

namespace Decoder

theorem run_get_bind {α : Type} (next : State → Decoder α) (state : State) :
    (get >>= next).run.run state = (next state).run.run state :=
  rfl

theorem run_bind {α β : Type} (decoder : Decoder α) (next : α → Decoder β) (state : State) :
    (decoder >>= next).run.run state =
      match decoder.run.run state with
      | (.ok value, after) => (next value).run.run after
      | (.error error, after) => (.error error, after) := by
  rw [ExceptT.run_bind, StateT.run_bind]
  obtain ⟨result, after⟩ := decoder.run.run state
  cases result with
  | ok value => rfl
  | error error => rfl

end Decoder

namespace State

/-- The answer to a read of a slot, by the state alone. -/
def answer (provider : Provider) (state : State) (slot : Word) : Except Error Word :=
  match state.address with
  | none => .error (.decode .noStep)
  | some address =>
      match state.nocache, address.address? with
      | true, some account => provider.storage account slot state.block
      | _, account =>
          match state.snapshot.storage[slot]?, account with
          | some word, _ => .ok word
          | none, none => .ok 0
          | none, some account =>
              match state.cache[slot]? with
              | some word => .ok word
              | none => provider.storage account slot state.block

theorem ask_run (provider : Provider) (account : Address) (slot : Word) (state : State) :
    (ask provider account slot).run.run state =
      (provider.storage account slot state.block,
        { state with reads := ⟨account, slot, state.block⟩ :: state.reads }) :=
  rfl

/-- A read gives the answer of the state and leaves all answers as they are: what the chain has
said is said again from the cache. -/
theorem readSlot_run (provider : Provider) (state : State) (slot : Word) :
    ∃ after, (readSlot provider slot).run.run state = (state.answer provider slot, after) ∧
      ∀ other, after.answer provider other = state.answer provider other := by
  obtain ⟨block, nocache, snapshot, address, cache, reads⟩ := state
  rw [readSlot, Decoder.run_get_bind]
  cases address with
  | none => exact ⟨_, rfl, fun _ => rfl⟩
  | some address =>
      cases address with
      | creation index =>
          cases nocache <;> cases known : snapshot.storage[slot]? <;>
            simp only [answer, ContextAddress.address?, known] <;>
            exact ⟨_, rfl, fun _ => rfl⟩
      | deployed account =>
          cases nocache with
          | true => exact ⟨_, rfl, fun _ => rfl⟩
          | false =>
              cases known : snapshot.storage[slot]? with
              | some word =>
                  simp only [answer, ContextAddress.address?, known]
                  exact ⟨_, rfl, fun _ => rfl⟩
              | none =>
                  cases cached : cache[slot]? with
                  | some word =>
                      simp only [answer, ContextAddress.address?, known, cached]
                      exact ⟨_, rfl, fun _ => rfl⟩
                  | none =>
                      simp only [answer, ContextAddress.address?, known, cached, Decoder.run_bind,
                        ask_run]
                      cases given : provider.storage account slot block with
                      | error error => exact ⟨_, rfl, fun _ => rfl⟩
                      | ok word =>
                          refine ⟨_, rfl, fun other => ?_⟩
                          by_cases same : slot = other
                          · subst same
                            simp [known, cached, given]
                          · simp [Std.ExtTreeMap.getElem?_insert, same]

theorem sees_iff (provider : Provider) (view : Word → Word) (state : State) :
    state.Sees provider view ↔ ∀ slot, state.answer provider slot = .ok (view slot) := by
  apply forall_congr'
  intro slot
  obtain ⟨after, run, -⟩ := readSlot_run provider state slot
  rw [run]

end State

/-! ### Decoders that read a value -/

namespace Decoder.Reads

variable {α β : Type} {provider : Provider} {view : Word → Word}

theorem readSlot (slot : Word) :
    Reads provider view (State.readSlot provider slot) (view slot) := by
  intro state sees
  obtain ⟨after, run, same⟩ := State.readSlot_run provider state slot
  have answers := (State.sees_iff provider view state).mp sees
  refine ⟨after, ?_, (State.sees_iff provider view after).mpr fun other => ?_⟩
  · rw [run, answers slot]
  · rw [same other, answers other]

theorem pure (value : α) : Reads provider view (Pure.pure value) value :=
  fun state sees => ⟨state, rfl, sees⟩

theorem lift (result : Except Error α) (value : α) (succeeds : result = .ok value) :
    Reads provider view (Decoder.lift result) value := by
  intro state sees
  subst succeeds
  exact ⟨state, rfl, sees⟩

theorem bind {decoder : Decoder α} {next : α → Decoder β} {value : α} {result : β}
    (first : Reads provider view decoder value)
    (rest : Reads provider view (next value) result) :
    Reads provider view (decoder >>= next) result := by
  intro state sees
  obtain ⟨middle, run, seesMiddle⟩ := first state sees
  obtain ⟨after, runRest, seesAfter⟩ := rest middle seesMiddle
  refine ⟨after, ?_, seesAfter⟩
  rw [run_bind, run]
  exact runRest

theorem mapM {γ : Type} (items : List γ) (read : γ → Decoder α) (value : γ → α)
    (each : ∀ item ∈ items, Reads provider view (read item) (value item)) :
    Reads provider view (items.mapM read) (items.map value) := by
  induction items with
  | nil => exact pure []
  | cons item items ih =>
      rw [List.mapM_cons, List.map_cons]
      have first := each item List.mem_cons_self
      have rest := ih fun other member => each other (List.mem_cons_of_mem item member)
      exact first.bind (rest.bind (pure _))

end Decoder.Reads

end SolTrace
