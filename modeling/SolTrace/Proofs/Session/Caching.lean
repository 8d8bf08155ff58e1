import SolTrace.Proofs.Session.Agreement
/-!
Values at a step, told without a cache, and what a cache of earlier answers may hold: a state that
has only kept true answers decodes the same values, and does not fetch a slot twice.
-/
set_option autoImplicit false

namespace SolTrace

/-! ### Values without a cache -/

namespace Step

variable (provider : Provider) (block : Nat) (nocache : Bool)

/-- The word in a slot at a step, told by the step and the chain alone. -/
def slot (step : Step) (slot : Word) : Except Error Word :=
  match nocache, step.address with
  | true, .deployed account => provider.storage account slot block
  | _, address =>
      match step.snapshot.storage[slot]?, address with
      | some word, _ => .ok word
      | none, .creation _ => .ok 0
      | none, .deployed account => provider.storage account slot block

/-- A chain that answers each read with the word that the slot has at a step. -/
def chain (step : Step) : Provider :=
  { provider with storage := fun _ slot _ => step.slot provider block nocache slot }

/-- A state at a step that asks for every slot and keeps no answer. -/
def uncached (step : Step) : State where
  block
  nocache := true
  snapshot := step.snapshot
  address := some (.deployed 0)
  cache := ∅
  reads := []

/-- The value of a variable at a step. -/
def value (step : Step) (assignment : Assignment) : Except Error Value :=
  ((State.decode (step.chain provider block nocache) assignment).run.run (step.uncached block)).1

/-- A variable with its value. If that cannot be decoded it is undefined. -/
def entry (step : Step) (assignment : Assignment) : String × Value :=
  (assignment.var.name, (step.value provider block nocache assignment).toOption.getD .undefined)

end Step

/-! ### States -/

namespace State

variable {provider : Provider} {block : Nat} {nocache : Bool} {step : Step}

/-- The cache after the chain was asked for a slot. -/
def keep (provider : Provider) (state : State) (account : Address) (slot : Word) : Storage :=
  if state.nocache then state.cache
  else
    match provider.storage account slot state.block with
    | .ok word => state.cache.insert slot word
    | .error _ => state.cache

/-- A read leaves the state alone, or asks the chain for a slot that is not in the cache. -/
theorem readSlot_cases (provider : Provider) (state : State) (slot : Word) :
    ∃ after, (readSlot provider slot).run.run state = (state.answer provider slot, after) ∧
      (after = state ∨ ∃ account, state.address = some (.deployed account) ∧
        (state.nocache = false → state.cache[slot]? = none) ∧
        after = { state with
          reads := ⟨account, slot, state.block⟩ :: state.reads
          cache := state.keep provider account slot }) := by
  obtain ⟨block, nocache, snapshot, address, cache, reads⟩ := state
  rw [readSlot, Decoder.run_get_bind]
  cases address with
  | none => exact ⟨_, rfl, Or.inl rfl⟩
  | some address =>
      cases address with
      | creation index =>
          cases nocache <;> cases known : snapshot.storage[slot]? <;>
            simp only [answer, ContextAddress.address?, known] <;>
            exact ⟨_, rfl, Or.inl rfl⟩
      | deployed account =>
          cases nocache with
          | true => exact ⟨_, rfl, Or.inr ⟨account, rfl, by simp, by simp [keep]⟩⟩
          | false =>
              cases known : snapshot.storage[slot]? with
              | some word =>
                  simp only [answer, ContextAddress.address?, known]
                  exact ⟨_, rfl, Or.inl rfl⟩
              | none =>
                  cases cached : cache[slot]? with
                  | some word =>
                      simp only [answer, ContextAddress.address?, known, cached]
                      exact ⟨_, rfl, Or.inl rfl⟩
                  | none =>
                      simp only [answer, ContextAddress.address?, known, cached, Decoder.run_bind,
                        ask_run]
                      cases given : provider.storage account slot block <;>
                        exact ⟨_, rfl, Or.inr ⟨account, rfl, by simp, by simp [keep, given]⟩⟩

/-- Whether the cache holds what the chain says of the state's account. -/
structure Faithful (provider : Provider) (block : Nat) (nocache : Bool) (state : State) :
    Prop where
  atBlock : state.block = block
  mode : state.nocache = nocache
  cached : ∀ account, state.address = some (.deployed account) → ∀ (slot word : Word),
    state.cache[slot]? = some word → provider.storage account slot block = .ok word

/-- Whether a state shows a step. -/
structure Shows (step : Step) (state : State) : Prop where
  address : state.address = some step.address
  snapshot : state.snapshot = step.snapshot

theorem Faithful.apply {state : State} (faithful : Faithful provider block nocache state)
    (step : Step) : Faithful provider block nocache (state.applyStep step) := by
  refine ⟨faithful.atBlock, faithful.mode, ?_⟩
  intro account deployed slot word cached
  simp only [applyStep, State.apply] at deployed cached
  by_cases same : state.address = some step.address
  · rw [if_pos same] at cached
    exact faithful.cached account (same.trans deployed) slot word cached
  · simp [same] at cached

/-- A faithful state answers as the step that it shows does. -/
theorem Faithful.answer {state : State} (faithful : Faithful provider block nocache state)
    (shows : Shows step state) (slot : Word) :
    state.answer provider slot = step.slot provider block nocache slot := by
  unfold State.answer Step.slot
  rw [shows.address, shows.snapshot, faithful.mode, faithful.atBlock]
  cases address : step.address with
  | creation index => cases nocache <;> cases step.snapshot.storage[slot]? <;> rfl
  | deployed account =>
      cases nocache with
      | true => rfl
      | false =>
          cases step.snapshot.storage[slot]? with
          | some word => rfl
          | none =>
              cases kept : state.cache[slot]? with
              | none => simp [ContextAddress.address?]
              | some word =>
                  have given := faithful.cached account (shows.address.trans (by rw [address]))
                    slot word kept
                  simp [ContextAddress.address?, given]

theorem Faithful.ask {state : State} (faithful : Faithful provider block nocache state)
    {account : Address} (deployed : state.address = some (.deployed account)) (slot : Word) :
    Faithful provider block nocache { state with
      reads := ⟨account, slot, state.block⟩ :: state.reads
      cache := state.keep provider account slot } := by
  refine ⟨faithful.atBlock, faithful.mode, ?_⟩
  intro other same found word cached
  have same : state.address = some (.deployed other) := same
  rw [deployed] at same
  cases same
  simp only [keep] at cached
  split at cached
  · exact faithful.cached account deployed found word cached
  · cases given : provider.storage account slot state.block with
    | error error =>
        simp only [given] at cached
        exact faithful.cached account deployed found word cached
    | ok answer =>
        simp only [given, Std.ExtTreeMap.getElem?_insert] at cached
        split at cached
        · rename_i here
          cases cached
          rw [← Std.LawfulEqCmp.eq_of_compare here, ← faithful.atBlock, given]
        · exact faithful.cached account deployed found word cached

/-! ### Fetched slots -/

/-- Whether the chain answers a read. -/
def Succeeds (provider : Provider) (read : StorageRead) : Bool :=
  (provider.storage read.address read.slot read.block).isOk

/-- Whether no slot was fetched twice since there were the given reads, and what was fetched since
then is in the cache. -/
def FetchedOnce (provider : Provider) (before : List StorageRead) (state : State) : Prop :=
  ∃ fetched, state.reads = fetched ++ before ∧ (fetched.filter (Succeeds provider)).Nodup ∧
    ∀ read ∈ fetched, Succeeds provider read = true → read.slot ∈ state.cache

theorem FetchedOnce.start (provider : Provider) (state : State) :
    FetchedOnce provider state.reads state :=
  ⟨[], rfl, List.nodup_nil, fun _ inside => absurd inside List.not_mem_nil⟩

theorem FetchedOnce.ask {state : State} {before : List StorageRead}
    (once : FetchedOnce provider before state) (caches : state.nocache = false)
    (account : Address) (slot : Word) (missing : state.cache[slot]? = none) :
    FetchedOnce provider before { state with
      reads := ⟨account, slot, state.block⟩ :: state.reads
      cache := state.keep provider account slot } := by
  obtain ⟨fetched, reads, distinct, kept⟩ := once
  refine ⟨⟨account, slot, state.block⟩ :: fetched, by simp [reads], ?_, ?_⟩
  · by_cases succeeds : Succeeds provider ⟨account, slot, state.block⟩ = true
    · rw [List.filter_cons_of_pos succeeds, List.nodup_cons]
      refine ⟨?_, distinct⟩
      intro again
      obtain ⟨inside, _⟩ := List.mem_filter.mp again
      have known := kept _ inside succeeds
      rw [Std.ExtTreeMap.mem_iff_isSome_getElem?, missing] at known
      cases known
    · rwa [List.filter_cons_of_neg succeeds]
  · intro read inside succeeds
    simp only [keep, caches, Bool.false_eq_true, if_false]
    rcases List.mem_cons.mp inside with rfl | inside
    · cases given : provider.storage account slot state.block with
      | error error => simp [Succeeds, given, Except.isOk, Except.toBool] at succeeds
      | ok word => simp
    · have known := kept read inside succeeds
      cases provider.storage account slot state.block with
      | error error => exact known
      | ok word => exact Std.ExtTreeMap.mem_insert.mpr (Or.inr known)

/-! ### Decoding -/

/-- Whether a property is kept by every read of a slot. -/
def KeptByReads (provider : Provider) (property : State → Prop) : Prop :=
  ∀ state slot, property state → property ((readSlot provider slot).run.run state).2

theorem keptByReads_true : KeptByReads provider fun _ => True :=
  fun _ _ _ => trivial

theorem faithful_keptByReads (step : Step) :
    KeptByReads provider fun state => Faithful provider block nocache state ∧ Shows step state := by
  rintro state slot ⟨faithful, shows⟩
  obtain ⟨after, run, rfl | ⟨account, deployed, _, rfl⟩⟩ := readSlot_cases provider state slot
  · rw [run]
    exact ⟨faithful, shows⟩
  · rw [run]
    exact ⟨faithful.ask deployed slot, shows.address, shows.snapshot⟩

theorem fetchedOnce_keptByReads (before : List StorageRead) :
    KeptByReads provider fun state => state.nocache = false ∧ FetchedOnce provider before state := by
  rintro state slot ⟨caches, once⟩
  obtain ⟨after, run, rfl | ⟨account, _, missing, rfl⟩⟩ := readSlot_cases provider state slot
  · rw [run]
    exact ⟨caches, once⟩
  · rw [run]
    exact ⟨caches, once.ask caches account slot (missing caches)⟩

/-- On a state that shows a step the decoder gives the value at the step. What reads keep is kept. -/
theorem decode_value {property : State → Prop} (kept : KeptByReads provider property)
    (assignment : Assignment) {state : State} (faithful : Faithful provider block nocache state)
    (shows : Shows step state) (holds : property state) :
    ((decode provider assignment).run.run state).1 =
        step.value provider block nocache assignment ∧
      let after := ((decode provider assignment).run.run state).2
      Faithful provider block nocache after ∧ Shows step after ∧ property after := by
  -- A state that keeps no answers goes along with the one that does.
  let related (first second : State) : Prop :=
    (Faithful provider block nocache first ∧ Shows step first) ∧ property first ∧
      second.snapshot = step.snapshot ∧ second.nocache = true ∧
        second.address = some (.deployed 0)
  have reads : ∀ slot, Decoder.Agree related (readSlot provider slot)
      (readSlot (step.chain provider block nocache) slot) := by
    rintro slot first second ⟨known, holds, snapshot, asks, deployed⟩
    have next := faithful_keptByReads step first slot known
    have holds := kept first slot holds
    obtain ⟨after, run, _⟩ := readSlot_cases provider first slot
    obtain ⟨other, direct, moved⟩ :=
      readSlot_cases (step.chain provider block nocache) second slot
    have given : second.answer (step.chain provider block nocache) slot =
        step.slot provider block nocache slot := by
      simp only [answer, asks, deployed, ContextAddress.address?, Step.chain]
    rw [run] at next holds ⊢
    rw [direct]
    refine ⟨(known.1.answer known.2 slot).trans given.symm, next, holds, ?_⟩
    rcases moved with rfl | ⟨_, _, _, rfl⟩ <;> exact ⟨snapshot, asks, deployed⟩
  have snapshots : ∀ first second, related first second → first.snapshot = second.snapshot := by
    rintro first second ⟨known, _, snapshot, _⟩
    exact known.2.snapshot.trans snapshot.symm
  obtain ⟨same, ⟨faithful, shows⟩, holds, _⟩ := decode_agree assignment snapshots reads state
    (step.uncached block) ⟨⟨faithful, shows⟩, holds, rfl, rfl, rfl⟩
  exact ⟨same, faithful, shows, holds⟩

theorem decodeAll_cons (provider : Provider) (assignment : Assignment)
    (assignments : List Assignment) (state : State) :
    (decodeAll provider (assignment :: assignments)).run state =
      let first := (decode provider assignment).run.run state
      let rest := (decodeAll provider assignments).run first.2
      ((assignment.var.name, first.1.toOption.getD .undefined) :: rest.1, rest.2) := by
  simp only [decodeAll, List.mapM_cons, StateT.run_bind]
  generalize (decode provider assignment).run.run state = first
  obtain ⟨result, after⟩ := first
  cases result <;> rfl

/-- A listing gives each variable the value at the step. -/
theorem decodeAll_entries {property : State → Prop} (kept : KeptByReads provider property)
    (assignments : List Assignment) :
    ∀ {state : State}, Faithful provider block nocache state → Shows step state →
      property state → ∃ after,
        (decodeAll provider assignments).run state =
          (assignments.map (step.entry provider block nocache), after) ∧
        Faithful provider block nocache after ∧ Shows step after ∧ property after := by
  induction assignments with
  | nil => exact fun faithful shows holds => ⟨_, rfl, faithful, shows, holds⟩
  | cons assignment assignments ih =>
      intro state faithful shows holds
      obtain ⟨first, faithful, shows, holds⟩ :=
        decode_value kept assignment faithful shows holds
      obtain ⟨after, rest, known⟩ := ih faithful shows holds
      refine ⟨after, ?_, known⟩
      rw [decodeAll_cons]
      simp only [rest, first, List.map_cons, Step.entry]

end State
end SolTrace
