import SolTrace.Proofs.Storage.Decoding
/-!
Byte strings in storage, whatever word their slot has: when they are read, which bytes they are, and
which slots are looked at to read them.
-/
set_option autoImplicit false

namespace SolTrace

/-! ### The slots that a decoder reads -/

/-- The state after slots have been read, one after the other. -/
def State.afterReads (provider : Provider) (state : State) (slots : List Word) : State :=
  slots.foldl (fun state slot => ((State.readSlot provider slot).run.run state).2) state

/-- On a state, the decoder ends with the result, and leaves the state that reading the given slots,
one after the other, leads to. -/
def Decoder.Visits {α : Type} (provider : Provider) (decoder : Decoder α) (state : State)
    (slots : List Word) (result : Except Error α) : Prop :=
  decoder.run.run state = (result, state.afterReads provider slots)

namespace State

variable {provider : Provider}

theorem afterReads_append (state : State) (slots others : List Word) :
    state.afterReads provider (slots ++ others) =
      (state.afterReads provider slots).afterReads provider others :=
  List.foldl_append

/-- Reading slots leaves the answers to all later reads as they are. -/
theorem afterReads_answer (state : State) (slots : List Word) (other : Word) :
    (state.afterReads provider slots).answer provider other = state.answer provider other := by
  induction slots generalizing state with
  | nil => rfl
  | cons slot slots ih =>
      obtain ⟨after, run, same⟩ := readSlot_run provider state slot
      have first : state.afterReads provider (slot :: slots) = after.afterReads provider slots := by
        rw [afterReads, List.foldl_cons, run]
        rfl
      rw [first, ih, same]

/-- The state after a read of a slot that no answer is kept of. -/
def asked (state : State) (account : Address) (slot : Word) : State :=
  { state with reads := ⟨account, slot, state.block⟩ :: state.reads }

/-- A state that asks the chain for every slot of a deployed account. -/
structure Asks (state : State) (account : Address) : Prop where
  nocache : state.nocache = true
  deployed : state.address = some (.deployed account)

theorem Asks.readSlot {state : State} {account : Address} (asks : state.Asks account)
    (slot : Word) :
    ((State.readSlot provider slot).run.run state).2 = state.asked account slot := by
  obtain ⟨block, nocache, snapshot, address, cache, reads⟩ := state
  obtain ⟨rfl, rfl⟩ := asks
  rfl

/-- Such a state keeps a record of all slots that are read, the last one first. -/
theorem Asks.reads {state : State} {account : Address} (asks : state.Asks account)
    (slots : List Word) :
    (state.afterReads provider slots).reads =
      (slots.map fun slot => ⟨account, slot, state.block⟩).reverse ++ state.reads := by
  induction slots generalizing state with
  | nil => rfl
  | cons slot slots ih =>
      have next : (state.asked account slot).Asks account := ⟨asks.nocache, asks.deployed⟩
      have first : state.afterReads provider (slot :: slots) =
          (state.asked account slot).afterReads provider slots := by
        rw [afterReads, List.foldl_cons, asks.readSlot]
        rfl
      rw [first, ih next, List.map_cons, List.reverse_cons, List.append_assoc]
      rfl

end State

namespace Decoder.Visits

variable {α β : Type} {provider : Provider} {state : State}

theorem pure (value : α) : Visits provider (Pure.pure value) state [] (.ok value) := rfl

theorem throw (error : Error) :
    Visits provider (MonadExcept.throw error : Decoder α) state [] (.error error) := rfl

theorem lift (result : Except Error α) : Visits provider (Decoder.lift result) state [] result := rfl

theorem readSlot (slot : Word) :
    Visits provider (State.readSlot provider slot) state [slot] (state.answer provider slot) := by
  obtain ⟨after, run, -⟩ := State.readSlot_run provider state slot
  rw [Visits, State.afterReads, List.foldl_cons, List.foldl_nil, run]

theorem bind {decoder : Decoder α} {next : α → Decoder β} {slots others : List Word} {value : α}
    {result : Except Error β} (first : Visits provider decoder state slots (.ok value))
    (rest : Visits provider (next value) (state.afterReads provider slots) others result) :
    Visits provider (decoder >>= next) state (slots ++ others) result := by
  rw [Visits, run_bind, first, State.afterReads_append]
  exact rest

/-- What follows reads no slot. -/
theorem bind_quiet {decoder : Decoder α} {next : α → Decoder β} {slots : List Word} {value : α}
    {result : Except Error β} (first : Visits provider decoder state slots (.ok value))
    (rest : Visits provider (next value) (state.afterReads provider slots) [] result) :
    Visits provider (decoder >>= next) state slots result := by
  have both := first.bind rest
  rwa [List.append_nil] at both

theorem map {decoder : Decoder α} (make : α → β) {slots : List Word} {value : α}
    (visits : Visits provider decoder state slots (.ok value)) :
    Visits provider (decoder >>= fun value => Pure.pure (make value)) state slots
      (.ok (make value)) := by
  rw [Visits, run_bind, visits]
  rfl

/-- A decoder that fails does not come to what follows. -/
theorem bind_error {decoder : Decoder α} {next : α → Decoder β} {slots : List Word} {error : Error}
    (fails : Visits provider decoder state slots (.error error)) :
    Visits provider (decoder >>= next) state slots (.error error) := by
  rw [Visits, run_bind, fails]

/-- Slots that are read one after the other give their words in this order. -/
theorem readSlots (view : Word → Word) (slots : List Word)
    (answers : ∀ slot ∈ slots, state.answer provider slot = .ok (view slot)) :
    Visits provider (slots.mapM (State.readSlot provider)) state slots (.ok (slots.map view)) := by
  induction slots generalizing state with
  | nil => exact pure []
  | cons slot slots ih =>
      obtain ⟨here, others⟩ := List.forall_mem_cons.mp answers
      have first : Visits provider (State.readSlot provider slot) state [slot]
          (state.answer provider slot) := readSlot slot
      rw [here] at first
      have kept : ∀ other ∈ slots,
          (state.afterReads provider [slot]).answer provider other = .ok (view other) :=
        fun other member => (State.afterReads_answer state [slot] other).trans (others other member)
      have rest := ih kept
      rw [List.mapM_cons]
      exact first.bind (rest.map fun words => view slot :: words)

end Decoder.Visits

namespace Decode

open Decoder (Visits)

/-! ### Lengths -/

/-- A length above the largest one is refused. -/
theorem length_refused (n : Nat) (bound : n < 2 ^ 256) (large : 2 ^ 20 < n) :
    length (BitVec.ofNat 256 n) = .error (.decode
      (if n < 2 ^ 64 then .lengthTooLarge n else .pointerRange (BitVec.ofNat 256 n))) := by
  have number : (BitVec.ofNat 256 n).toNat = n := by
    rw [BitVec.toNat_ofNat, Nat.mod_eq_of_lt bound]
  have largest : ¬ n ≤ maxLength := Nat.not_le.mpr large
  have range : n ≤ Text.maxNat64 ↔ n < 2 ^ 64 := Nat.le_iff_lt_add_one
  by_cases pointed : n < 2 ^ 64
  · simp only [length, pointer, number, if_pos (range.mpr pointed), ok_bind, if_neg largest,
      if_pos pointed]
    rfl
  · simp only [length, pointer, number, if_neg (mt range.mp pointed), if_neg pointed]
    rfl

/-! ### The bytes of words -/

/-- Byte after byte, the words that follow each other. -/
theorem getElem?_flatMap_bytes (words : List Word) (i : Nat) :
    (words.flatMap Word.bytes)[i]? = words[i / 32]?.bind fun word => word.bytes[i % 32]? := by
  induction words generalizing i with
  | nil => rfl
  | cons word words ih =>
      have size := word.bytes_length
      rw [List.flatMap_cons]
      by_cases first : i < 32
      · rw [List.getElem?_append_left (by rwa [size]), Nat.div_eq_of_lt first,
          Nat.mod_eq_of_lt first]
        rfl
      · obtain ⟨rest, rfl⟩ := Nat.exists_eq_add_of_le' (Nat.not_lt.mp first)
        rw [List.getElem?_append_right (by omega), size, Nat.add_sub_cancel, ih,
          Nat.add_div_right rest (by decide), Nat.add_mod_right]
        rfl

theorem length_flatMap_bytes (words : List Word) :
    (words.flatMap Word.bytes).length = 32 * words.length := by
  induction words with
  | nil => rfl
  | cons word words ih =>
      rw [List.flatMap_cons, List.length_append, ih, word.bytes_length, List.length_cons]
      omega

/-! ### Byte strings -/

/-- The length of a long byte string, by the word in its slot. -/
def longLength (word : Word) : Nat :=
  (word.toNat - 1) / 2

/-- The slots that the data of a byte string is read from, by the word in its slot: those that
follow the hash of the slot. A short one has no data outside of its slot, and a length that is taken
for garbage is not followed. -/
def dataSlots (slot word : Word) : List Word :=
  if word.toNat % 2 = 1 ∧ longLength word ≤ 2 ^ 20 then
    (List.range ((longLength word + 31) / 32)).map fun i =>
      keccak256 slot.bytes + BitVec.ofNat 256 i
  else []

/-- What comes of reading the byte string in a slot, by the words that storage has. The last byte of
an even word is the double of the length. -/
structure BytesAt (view : Word → Word) (slot : Word) (result : Except Error (List UInt8)) :
    Prop where
  short : (view slot).toNat % 2 = 0 → (view slot).toNat % 256 < 64 →
    result = .ok ((view slot).bytes.take ((view slot).toNat % 256 / 2))
  shortRefused : (view slot).toNat % 2 = 0 → 64 ≤ (view slot).toNat % 256 →
    result = .error (.decode (.shortLength ((view slot).toNat % 256 / 2)))
  long : (view slot).toNat % 2 = 1 → longLength (view slot) ≤ 2 ^ 20 →
    ∃ data, result = .ok data ∧ data.length = longLength (view slot) ∧
      ∀ i < longLength (view slot),
        data[i]? = (view (keccak256 slot.bytes + BitVec.ofNat 256 (i / 32))).bytes[i % 32]?
  longRefused : (view slot).toNat % 2 = 1 → 2 ^ 20 < longLength (view slot) →
    result = .error (.decode (if longLength (view slot) < 2 ^ 64
      then .lengthTooLarge (longLength (view slot))
      else .pointerRange (BitVec.ofNat 256 (longLength (view slot)))))

section

variable {provider : Provider} {state : State} {view : Word → Word} {slot : Word}

/-- The bytes in an even word, or the refusal of its length. -/
def shortData (word : Word) : Except Error (List UInt8) :=
  if word.toNat % 256 < 64 then .ok (word.bytes.take (word.toNat % 256 / 2))
  else .error (.decode (.shortLength (word.toNat % 256 / 2)))

theorem storageBytes_even (answer : state.answer provider slot = .ok (view slot))
    (even : (view slot).toNat % 2 = 0) :
    Visits provider (storageBytes provider slot) state [slot] (shortData (view slot)) := by
  have first : Visits provider (State.readSlot provider slot) state [slot]
      (state.answer provider slot) := Visits.readSlot slot
  rw [answer] at first
  refine first.bind_quiet ?_
  rw [if_pos even, shortData]
  by_cases fits : (view slot).toNat % 256 < 64
  · rw [if_neg (by omega), if_pos fits]
    exact Visits.pure _
  · rw [if_pos (by omega), if_neg fits]
    exact Visits.throw _

theorem storageBytes_refused (answer : state.answer provider slot = .ok (view slot))
    (odd : (view slot).toNat % 2 = 1) (large : 2 ^ 20 < longLength (view slot)) :
    Visits provider (storageBytes provider slot) state [slot] (.error (.decode
      (if longLength (view slot) < 2 ^ 64 then .lengthTooLarge (longLength (view slot))
        else .pointerRange (BitVec.ofNat 256 (longLength (view slot)))))) := by
  have half : (view slot).toNat / 2 = longLength (view slot) := by
    rw [longLength]
    omega
  have bound : longLength (view slot) < 2 ^ 256 := by
    have := (view slot).isLt
    omega
  have first : Visits provider (State.readSlot provider slot) state [slot]
      (state.answer provider slot) := Visits.readSlot slot
  rw [answer] at first
  refine first.bind_quiet ?_
  rw [if_neg (by omega), half, length_refused _ bound large]
  exact Visits.bind_error (Visits.lift _)

theorem storageBytes_odd
    (answers : ∀ other ∈ slot :: dataSlots slot (view slot),
      state.answer provider other = .ok (view other))
    (odd : (view slot).toNat % 2 = 1) (small : longLength (view slot) ≤ 2 ^ 20) :
    Visits provider (storageBytes provider slot) state (slot :: dataSlots slot (view slot))
      (.ok ((((dataSlots slot (view slot)).map view).flatMap Word.bytes).take
        (longLength (view slot)))) := by
  obtain ⟨answer, others⟩ := List.forall_mem_cons.mp answers
  have half : (view slot).toNat / 2 = longLength (view slot) := by
    rw [longLength]
    omega
  have first : Visits provider (State.readSlot provider slot) state [slot]
      (state.answer provider slot) := Visits.readSlot slot
  rw [answer] at first
  have kept : ∀ other ∈ dataSlots slot (view slot),
      (state.afterReads provider [slot]).answer provider other = .ok (view other) :=
    fun other member => (State.afterReads_answer state [slot] other).trans (others other member)
  have words := Visits.readSlots view (dataSlots slot (view slot)) kept
  refine first.bind ?_
  rw [if_neg (by omega), half, length_ok _ small]
  refine (Visits.lift _).bind ?_
  have loop : readSlots provider (dataSlot slot) ((longLength (view slot) + 31) / 32) =
      (dataSlots slot (view slot)).mapM (State.readSlot provider) := by
    rw [dataSlots, if_pos ⟨odd, small⟩, List.mapM_map]
    rfl
  rw [loop]
  exact words.map fun words => (words.flatMap Word.bytes).take (longLength (view slot))

/-- The words of the data slots hold all bytes of a long byte string. -/
theorem longData (odd : (view slot).toNat % 2 = 1) (small : longLength (view slot) ≤ 2 ^ 20) :
    let data := (((dataSlots slot (view slot)).map view).flatMap Word.bytes).take
      (longLength (view slot))
    data.length = longLength (view slot) ∧ ∀ i < longLength (view slot),
      data[i]? = (view (keccak256 slot.bytes + BitVec.ofNat 256 (i / 32))).bytes[i % 32]? := by
  have slots : dataSlots slot (view slot) =
      (List.range ((longLength (view slot) + 31) / 32)).map
        fun i => keccak256 slot.bytes + BitVec.ofNat 256 i := if_pos ⟨odd, small⟩
  constructor
  · rw [List.length_take, length_flatMap_bytes, List.length_map, slots, List.length_map,
      List.length_range]
    omega
  · intro i inside
    have within : i / 32 < (longLength (view slot) + 31) / 32 := by omega
    rw [List.getElem?_take_of_lt inside, getElem?_flatMap_bytes, slots, List.getElem?_map,
      List.getElem?_map, List.getElem?_range within]
    rfl

end

/-- Whatever word a slot has, reading a byte string from it looks at the slot and at its data slots,
in this order, and the result is the one that the words there determine. A state that asks the chain
for every slot keeps a record of just these reads. -/
theorem storageBytes_exact (provider : Provider) (state : State) (view : Word → Word) (slot : Word)
    (answers : ∀ other ∈ slot :: dataSlots slot (view slot),
      state.answer provider other = .ok (view other)) :
    ∃ result, BytesAt view slot result ∧
      Visits provider (storageBytes provider slot) state (slot :: dataSlots slot (view slot))
        result ∧
      ∀ account, state.Asks account →
        ((storageBytes provider slot).run.run state).2.reads =
          ((slot :: dataSlots slot (view slot)).map
            fun other => ⟨account, other, state.block⟩).reverse ++ state.reads := by
  have recorded (slots : List Word) (result : Except Error (List UInt8))
      (visits : Visits provider (storageBytes provider slot) state slots result)
      (account : Address) (asks : state.Asks account) :
      ((storageBytes provider slot).run.run state).2.reads =
        (slots.map fun other => ⟨account, other, state.block⟩).reverse ++ state.reads := by
    rw [visits, asks.reads]
  have answer := answers slot List.mem_cons_self
  rcases Nat.mod_two_eq_zero_or_one (view slot).toNat with even | odd
  · have slots : dataSlots slot (view slot) = [] := if_neg fun both => by omega
    have visits := storageBytes_even answer even
    rw [slots]
    refine ⟨_, ⟨fun _ fits => if_pos fits, fun _ large => if_neg (by omega), ?_, ?_⟩, visits,
      recorded _ _ visits⟩
    · intro odd
      omega
    · intro odd
      omega
  · by_cases small : longLength (view slot) ≤ 2 ^ 20
    · have visits := storageBytes_odd answers odd small
      refine ⟨_, ⟨?_, ?_, fun _ _ => ⟨_, rfl, longData odd small⟩, ?_⟩, visits,
        recorded _ _ visits⟩
      · intro even
        omega
      · intro even
        omega
      · intro _ large
        omega
    · have slots : dataSlots slot (view slot) = [] := if_neg fun both => small both.2
      have visits := storageBytes_refused answer odd (Nat.not_le.mp small)
      rw [slots]
      refine ⟨_, ⟨?_, ?_, fun _ fits => absurd fits small, fun _ _ => rfl⟩, visits,
        recorded _ _ visits⟩
      · intro even
        omega
      · intro even
        omega

/-! ### A byte string of two data slots -/

namespace Label

/-- Every slot has its own number in it, with two bits set; slot 5 has the double of 42, plus one. -/
def view (slot : Word) : Word :=
  slot ||| 80

def chain : Provider where
  transaction _ := .error (.decode .noStep)
  trace _ := .error (.decode .noStep)
  code _ := .error (.decode .noStep)
  storage _ slot _ := .ok (view slot)

def state : State :=
  (State.new 7 true).apply (.deployed 0x22) .empty

theorem dataSlots_eq : dataSlots 5 (view 5) =
    [0x036b6384b5eca791c62761152d0c79bb0604c104a5fb6f4eb0703f3154bb3db0,
      0x036b6384b5eca791c62761152d0c79bb0604c104a5fb6f4eb0703f3154bb3db1] := by
  have slots : (List.range ((longLength (view 5) + 31) / 32)) = [0, 1] := by decide
  have small : (view 5).toNat % 2 = 1 ∧ longLength (view 5) ≤ 2 ^ 20 := by decide
  rw [dataSlots, if_pos small, slots, List.map_cons, List.map_singleton, keccak256_five]
  decide

end Label

/-- The fortieth byte is the eighth one of the second data slot, and three slots are read. -/
theorem storageBytes_exact_label :
    (∀ other ∈ 5 :: dataSlots 5 (Label.view 5),
      Label.state.answer Label.chain other = .ok (Label.view other)) ∧
    ∃ data after, (storageBytes Label.chain 5).run.run Label.state = (.ok data, after) ∧
      data.length = 42 ∧ data[39]? = some 0x91 ∧
      after.reads =
        [⟨0x22, 0x036b6384b5eca791c62761152d0c79bb0604c104a5fb6f4eb0703f3154bb3db1, 7⟩,
          ⟨0x22, 0x036b6384b5eca791c62761152d0c79bb0604c104a5fb6f4eb0703f3154bb3db0, 7⟩,
          ⟨0x22, 5, 7⟩] := by
  have answers : ∀ other ∈ 5 :: dataSlots 5 (Label.view 5),
      Label.state.answer Label.chain other = .ok (Label.view other) := fun _ _ => rfl
  obtain ⟨result, bytes, visits, recorded⟩ :=
    storageBytes_exact Label.chain Label.state Label.view 5 answers
  have length : longLength (Label.view 5) = 42 := by decide
  obtain ⟨data, rfl, size, each⟩ := bytes.long (by decide) (by decide)
  rw [length] at size each
  have last := each 39 (by decide)
  rw [keccak256_five] at last
  have reads := recorded 0x22 ⟨rfl, rfl⟩
  rw [visits, Label.dataSlots_eq] at reads
  refine ⟨answers, data, _, visits, size, last.trans (by decide), ?_⟩
  rw [Label.dataSlots_eq]
  exact reads

end Decode

end SolTrace
