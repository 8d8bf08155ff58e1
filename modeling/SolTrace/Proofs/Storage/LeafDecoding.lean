import SolTrace.Proofs.Storage.Counting
/-!
The decoding of leaves: the value of a variable is put together from those of its leaves. As the
leaves of a layout are inside their slots, no value overflows its slot when it is decoded.
-/
set_option autoImplicit false

namespace SolTrace

/-! ### Decoders made of leaves -/

theorem Ty.bytes_or_string {name : String} (reference : (Ty.elementary name).isReference = true) :
    Elementary.ofName? name = some .bytes ∨ Elementary.ofName? name = some .string := by
  simp only [Ty.isReference] at reference
  split at reference
  · next found => exact .inl found
  · next found => exact .inr found
  · cases reference

/-- The decoder of a leaf. -/
def Leaf.decode (provider : Provider) (leaf : Leaf) : Decoder Value :=
  Decode.ofStorage provider leaf.type leaf.slot leaf.offset

/-- The number in the bytes of a leaf, given the word of its slot. -/
def Leaf.number (leaf : Leaf) (word : Word) : Nat :=
  word.toNat / 256 ^ leaf.offset % 256 ^ leaf.width

/-- The decoder of a packed value that looks at its own bytes of the slot alone. -/
def Leaf.decodePacked (provider : Provider) (leaf : Leaf) : Decoder Value := do
  let word ← State.readSlot provider leaf.slot
  Decoder.lift (Decode.ofBytes leaf.type (bigEndian leaf.width (leaf.number word)))

theorem Leaf.decode_packed (provider : Provider) (leaf : Leaf)
    (packed : leaf.type.isReference = false) (room : leaf.offset + leaf.width ≤ 32) :
    leaf.decode provider = leaf.decodePacked provider := by
  obtain ⟨type, slot, offset⟩ := leaf
  have room : offset + type.bytes ≤ 32 := room
  have bytes (word : Word) := Decode.packedBytes_eq word offset type.bytes room
  cases type with
  | elementary name =>
      simp only [Ty.isReference] at packed
      simp only [decode, decodePacked, number, width, Decode.ofStorage, Decode.ofSlot,
        Ty.elementary?, if_neg (Nat.not_lt.mpr room), bytes]
      split
      · next found => simp [found] at packed
      · next found => simp [found] at packed
      · rfl
  | enum name values =>
      simp only [decode, decodePacked, number, width, Decode.ofStorage, Decode.ofSlot,
        Ty.elementary?, if_neg (Nat.not_lt.mpr room), bytes]
  | array base length => cases packed
  | mapping key value => cases packed
  | struct name members => cases packed

/-- Whether a decoder runs those of the given leaves, one after the other, and does nothing else but
put their values together. -/
inductive Decoder.Takes (provider : Provider) : {α : Type} → Decoder α → List Leaf → Prop
  | pure {α : Type} (value : α) : Takes provider (Pure.pure value) []
  | leaf (leaf : Leaf) : Takes provider (leaf.decode provider) [leaf]
  | bind {α β : Type} {decoder : Decoder α} {next : α → Decoder β} {first rest : List Leaf} :
      Takes provider decoder first → (∀ value, Takes provider (next value) rest) →
        Takes provider (decoder >>= next) (first ++ rest)

namespace Decode

open Decoder (Takes)

variable {provider : Provider}

theorem takes_map {α β : Type} {decoder : Decoder α} {leaves : List Leaf}
    (takes : Takes provider decoder leaves) (make : α → β) :
    Takes provider (decoder >>= fun value => pure (make value)) leaves := by
  have mapped := takes.bind fun value => Takes.pure (make value)
  rwa [List.append_nil] at mapped

/-- Byte strings, mappings and dynamic arrays have no offset. -/
theorem takes_leaf (type : Ty) (slot : Word) (offset : Nat)
    (whole : type.isReference →
      ofStorage provider type slot offset = ofStorage provider type slot 0) :
    Takes provider (ofStorage provider type slot offset) [Leaf.ofType type slot offset] := by
  have same : ofStorage provider type slot offset =
      (Leaf.ofType type slot offset).decode provider := by
    simp only [Leaf.decode, Leaf.ofType]
    split
    · next reference => exact whole reference
    · rfl
  rw [same]
  exact Takes.leaf _

theorem elementsFrom_takes (base : Ty) (first : Word)
    (each : ∀ slot offset,
      Takes provider (ofStorage provider base slot offset) (leaves base slot offset))
    (count : Nat) :
    ∀ cursor read,
      Takes provider (elementsFrom base first (ofStorage provider base) count cursor read)
        (elementLeaves base (leaves base) first count cursor) := by
  induction count with
  | zero => exact fun _ read => Takes.pure read.reverse
  | succ count ih => exact fun cursor _ => (each _ _).bind fun _ => ih _ _

theorem membersOfStorage_takes (first : Word) (members : List Variable)
    (each : ∀ member ∈ members, ∀ slot offset,
      Takes provider (ofStorage provider member.type slot offset)
        (leaves member.type slot offset)) :
    ∀ cursor, Takes provider (membersOfStorage provider first members cursor)
      (memberLeaves members first cursor) := by
  induction members with
  | nil => exact fun _ => Takes.pure []
  | cons member members ih =>
      intro cursor
      have here := each member List.mem_cons_self
      have rest := ih fun other within => each other (List.mem_cons_of_mem _ within)
      obtain ⟨id, name, location, type, scope, state, mutability, literal⟩ := member
      simp only [membersOfStorage]
      cases mutability with
      | mutable =>
          rw [memberLeaves, if_pos rfl]
          exact (here _ _).bind fun _ => takes_map (rest _) _
      | immutable => exact rest cursor
      | constant =>
          cases literal with
          | none => exact rest cursor
          | some literal => exact takes_map (rest cursor) _

/-- A value in storage is put together from those of its leaves. -/
theorem ofStorage_takes (type : Ty) : ∀ slot offset,
    Takes provider (ofStorage provider type slot offset) (leaves type slot offset) := by
  induction type using Ty.induction with
  | elementary name =>
      intro slot offset
      rw [leaves]
      refine takes_leaf _ slot offset fun reference => ?_
      rcases Ty.bytes_or_string reference with found | found
      · simp only [ofStorage, ofSlot, Ty.elementary?, found]
      · simp only [ofStorage, ofSlot, Ty.elementary?, found]
  | enum name values =>
      intro slot offset
      rw [leaves]
      refine takes_leaf _ slot offset fun reference => ?_
      cases reference
  | mapping key value =>
      intro slot offset
      rw [leaves]
      exact takes_leaf _ slot offset fun _ => by simp only [ofStorage]
  | struct name members each =>
      intro slot offset
      rw [leaves]
      simp only [ofStorage]
      exact takes_map (membersOfStorage_takes slot members each _) _
  | array base length each =>
      intro slot offset
      rw [leaves.eq_def]
      cases length with
      | none => exact takes_leaf _ slot offset fun _ => by simp only [ofStorage]
      | some count =>
          simp only [ofStorage, storageElements, pure_bind]
          exact takes_map (elementsFrom_takes base slot each count _ _) _

end Decode

/-! ### Errors that do not occur -/

/-- Whether a decoder never fails with an error. -/
def Decoder.Avoids {α : Type} (error : Error) (decoder : Decoder α) : Prop :=
  ∀ state : State, (decoder.run.run state).1 ≠ .error error

namespace Decoder.Avoids

variable {α β : Type} {error : Error}

theorem pure (value : α) : Avoids error (Pure.pure value : Decoder α) :=
  fun _ same => nomatch same

theorem lift {result : Except Error α} (avoids : result ≠ .error error) :
    Avoids error (Decoder.lift result) :=
  fun _ => avoids

theorem throw {other : Error} (different : other ≠ error) :
    Avoids error (MonadExcept.throw other : Decoder α) :=
  fun _ same => different (Except.error.inj same)

theorem bind {decoder : Decoder α} {next : α → Decoder β} (first : Avoids error decoder)
    (rest : ∀ value, Avoids error (next value)) : Avoids error (decoder >>= next) := by
  intro state
  rw [run_bind]
  have here := first state
  cases ran : decoder.run.run state with
  | mk result after =>
      rw [ran] at here
      cases result with
      | ok value => exact rest value after
      | error other => exact fun same => here (by rw [Except.error.inj same])

theorem mapM {γ : Type} (items : List γ) (read : γ → Decoder α)
    (each : ∀ item, Avoids error (read item)) : Avoids error (items.mapM read) := by
  induction items with
  | nil => exact pure []
  | cons item items ih =>
      rw [List.mapM_cons]
      exact (each item).bind fun _ => ih.bind fun _ => pure _

/-- A read of a slot fails if there is no step or if the chain does not answer. -/
theorem readSlot {provider : Provider} (different : error ≠ .decode .noStep)
    (answers : ∀ account slot block, provider.storage account slot block ≠ .error error)
    (slot : Word) : Avoids error (State.readSlot provider slot) := by
  intro state
  obtain ⟨after, ran, -⟩ := State.readSlot_run provider state slot
  rw [ran]
  unfold State.answer
  split
  · exact fun same => different (Except.error.inj same).symm
  · split
    · exact answers _ _ _
    · split
      · exact nofun
      · exact nofun
      · split
        · exact nofun
        · exact answers _ _ _

end Decoder.Avoids

namespace Decode

open Decoder (Avoids)

/-- The error of a value that does not fit into its slot. -/
def overflow (text : String) (offset : Nat) : Error :=
  .decode (.overflowsSlot text offset)

variable {text : String} {place : Nat}

theorem length_avoids (word : Word) : length word ≠ .error (overflow text place) := by
  unfold length pointer
  by_cases fits : word.toNat ≤ Text.maxNat64
  · simp only [if_pos fits, ok_bind]
    split <;> exact nofun
  · simp only [if_neg fits]
    exact nofun

theorem ofBytes_avoids (type : Ty) (bytes : List UInt8) :
    ofBytes type bytes ≠ .error (overflow text place) := by
  unfold ofBytes
  split
  · exact nofun
  · split
    · rename_i elementary _
      cases elementary <;> exact nofun
    · exact nofun

section

variable {provider : Provider}
  (reads : ∀ slot, Avoids (overflow text place) (State.readSlot provider slot))

include reads

theorem storageBytes_avoids (slot : Word) :
    Avoids (overflow text place) (storageBytes provider slot) := by
  refine (reads slot).bind fun word => ?_
  by_cases short : word.toNat % 2 = 0
  · simp only [if_pos short]
    by_cases long : 31 < word.toNat % 256 / 2
    · simp only [if_pos long]
      exact Avoids.throw nofun
    · simp only [if_neg long]
      exact Avoids.pure _
  · simp only [if_neg short]
    refine (Avoids.lift (length_avoids _)).bind fun length => ?_
    exact (Avoids.mapM _ _ fun _ => reads _).bind fun _ => Avoids.pure _

theorem ofSlot_avoids (type : Ty) (slot : Word) (offset : Nat) (room : offset + type.bytes ≤ 32) :
    Avoids (overflow text place) (ofSlot provider type slot offset) := by
  unfold ofSlot
  split
  · exact (storageBytes_avoids reads slot).bind fun _ => Avoids.pure _
  · exact (storageBytes_avoids reads slot).bind fun _ => Avoids.pure _
  · rw [if_neg (Nat.not_lt.mpr room)]
    exact (reads slot).bind fun _ => Avoids.lift (ofBytes_avoids type _)

theorem storageElements_avoids (slot : Word) (fixed : Option Nat) :
    Avoids (overflow text place) (storageElements provider slot fixed) := by
  cases fixed with
  | some count => exact Avoids.pure _
  | none =>
      exact (reads slot).bind fun _ =>
        (Avoids.lift (length_avoids _)).bind fun _ => Avoids.pure _

omit reads in
theorem elementsFrom_avoids (base : Ty) (first : Word) (element : Word → Nat → Decoder Value)
    (each : ∀ slot offset, offset + base.bytes ≤ 32 →
      Avoids (overflow text place) (element slot offset)) (count : Nat) :
    ∀ cursor read,
      Avoids (overflow text place) (elementsFrom base first element count cursor read) := by
  induction count with
  | zero => exact fun _ read => Avoids.pure read.reverse
  | succ count ih =>
      exact fun cursor _ => (each _ _ (Cursor.place_offset cursor base).1).bind fun _ => ih _ _

omit reads in
theorem membersOfStorage_avoids (first : Word) (members : List Variable)
    (each : ∀ member ∈ members, ∀ slot offset, offset + member.type.bytes ≤ 32 →
      Avoids (overflow text place) (ofStorage provider member.type slot offset)) :
    ∀ cursor, Avoids (overflow text place) (membersOfStorage provider first members cursor) := by
  induction members with
  | nil => exact fun _ => Avoids.pure []
  | cons member members ih =>
      intro cursor
      have here := each member List.mem_cons_self
      have rest := ih fun other within => each other (List.mem_cons_of_mem _ within)
      obtain ⟨id, name, location, type, scope, state, mutability, literal⟩ := member
      simp only [membersOfStorage]
      cases mutability with
      | mutable =>
          have room := (Cursor.place_offset cursor type).1
          exact (here _ _ room).bind fun _ => (rest _).bind fun _ => Avoids.pure _
      | immutable => exact rest cursor
      | constant =>
          cases literal with
          | none => exact rest cursor
          | some literal => exact (rest cursor).bind fun _ => Avoids.pure _

/-- A value that is read at a place for its type does not overflow its slot, nor does any part of
it. -/
theorem ofStorage_avoids (type : Ty) : ∀ slot offset, offset + type.bytes ≤ 32 →
    Avoids (overflow text place) (ofStorage provider type slot offset) := by
  induction type using Ty.induction with
  | elementary name =>
      intro slot offset room
      simp only [ofStorage]
      exact ofSlot_avoids reads _ slot offset room
  | enum name values =>
      intro slot offset room
      simp only [ofStorage]
      exact ofSlot_avoids reads _ slot offset room
  | mapping key value =>
      intro slot offset _
      simp only [ofStorage]
      exact Avoids.pure _
  | struct name members each =>
      intro slot offset _
      simp only [ofStorage]
      exact (membersOfStorage_avoids slot members each _).bind fun _ => Avoids.pure _
  | array base length each =>
      intro slot offset _
      simp only [ofStorage]
      refine (storageElements_avoids reads slot length).bind fun found => ?_
      exact (elementsFrom_avoids base _ _ each _ _ _).bind fun _ => Avoids.pure _

end

end Decode

/-! ### Layouts -/

namespace Layout

/-- The leaves of a layout are those of the members of a struct with its variables. -/
theorem placeFrom_leaves (vars : List Variable) (cursor : Cursor) :
    (placeFrom cursor vars).1.flatMap Assignment.leaves = memberLeaves vars 0 cursor := by
  induction vars generalizing cursor with
  | nil => rfl
  | cons var vars ih =>
      obtain ⟨id, name, location, type, scope, state, mutability, literal⟩ := var
      cases mutability with
      | mutable =>
          have first (n : Nat) : (0 : Word) + BitVec.ofNat 256 n = BitVec.ofNat 256 n :=
            BitVec.zero_add _
          rw [placeFrom_mutable _ _ _ rfl, List.flatMap_cons, ih, memberLeaves, if_pos rfl]
          simp only [Assignment.leaves, first]
      | constant =>
          cases literal with
          | none => exact ih cursor
          | some literal => exact ih cursor
      | immutable => exact ih cursor

/-- A variable has a literal or the place of the next value. -/
theorem mem_placeFrom {vars : List Variable} {cursor : Cursor} {assignment : Assignment}
    (listed : assignment ∈ (placeFrom cursor vars).1) :
    (∃ literal, assignment.location = .constant literal) ∨
      assignment.var ∈ vars ∧ assignment.var.mutability = .mutable ∧
        ∃ place : Cursor, place.offset + assignment.var.type.bytes ≤ 32 ∧
          (assignment.var.type.isReference → place.offset = 0) ∧
          assignment.location = .storage (BitVec.ofNat 256 place.slot) place.offset := by
  induction vars generalizing cursor with
  | nil => cases listed
  | cons var vars ih =>
      have later {next : Cursor} (listed : assignment ∈ (placeFrom next vars).1) :=
        (ih listed).imp_right fun ⟨within, rest⟩ =>
          And.intro (List.mem_cons_of_mem var within) rest
      obtain ⟨id, name, location, type, scope, state, mutability, literal⟩ := var
      cases mutability with
      | mutable =>
          rw [placeFrom_mutable _ _ _ rfl] at listed
          rcases List.mem_cons.mp listed with rfl | listed
          · have room := Cursor.place_offset cursor type
            exact .inr ⟨List.mem_cons_self, rfl, _, room.1, room.2, rfl⟩
          · exact later listed
      | constant =>
          cases literal with
          | none => exact later listed
          | some literal =>
              rcases List.mem_cons.mp listed with rfl | listed
              · exact .inl ⟨literal, rfl⟩
              · exact later listed
      | immutable => exact later listed

/-- The leaves of a layout are put down in its slots. -/
theorem leaves_laid (vars : List Variable) (told : (Ty.wholeEnd vars .start).slots ≤ Ty.maxSlots) :
    (ofVariables vars).slots ≤ Ty.maxSlots ∧
      Laid 0 0 (32 * (ofVariables vars).slots) ((ofVariables vars).leaves.map Leaf.cell) [] := by
  have leaves_eq : (ofVariables vars).leaves = memberLeaves vars 0 .start :=
    placeFrom_leaves vars .start
  have slots_eq : (ofVariables vars).slots = (Ty.endOf vars .start).slots :=
    congrArg Cursor.slots (placeFrom_end vars .start)
  obtain ⟨laid, stop⟩ := memberLeaves_laid 0 vars .start (fun var _ => leavesLaid var.type)
    (Ty.members_told told) (Nat.zero_le 32)
  rw [leaves_eq, slots_eq]
  refine ⟨by rwa [Ty.endOf_told told], ?_⟩
  exact laid.mono (Nat.le_refl 0) (Cursor.position_le_slots _ stop)

/-- Leaves that are put down in slots that can be told are in one of them each. -/
theorem slot_lt {leaves : List Leaf} {slots : Nat} (few : slots ≤ Ty.maxSlots)
    (laid : Laid 0 0 (32 * slots) (leaves.map Leaf.cell) []) {leaf : Leaf}
    (within : leaf ∈ leaves) : leaf.slot.toNat < slots ∧ leaf.offset + leaf.width ≤ 32 := by
  have proper := laid.proper _ (List.mem_map_of_mem within)
  have positive : 0 < leaf.width := proper.positive
  have largest : Ty.maxSlots < 2 ^ 256 := by decide
  refine ⟨?_, proper.room⟩
  rcases laid.inside _ (List.mem_map_of_mem within) with ⟨index, place, -, below⟩ | ⟨_, none, _⟩
  · have place : leaf.slot = 0 + BitVec.ofNat 256 index := place
    have below : 32 * index + leaf.offset + leaf.width ≤ 32 * slots := below
    have start : (0 : Word) + BitVec.ofNat 256 index = BitVec.ofNat 256 index := BitVec.zero_add _
    rw [place, start, BitVec.toNat_ofNat, Nat.mod_eq_of_lt (by omega)]
    omega
  · cases none

end Layout

/-- The leaves of a value are in the slots of its type. -/
theorem slot_own {type : Ty} (told : type.wholeSlots ≤ Ty.maxSlots) {slot : Word} {offset : Nat}
    (room : offset + type.bytes ≤ 32) (aligned : type.isReference → offset = 0) {leaf : Leaf}
    (within : leaf ∈ leaves type slot offset) :
    ∃ index < type.slots, leaf.slot = slot + BitVec.ofNat 256 index := by
  have laid := leavesLaid type slot offset told room aligned
  have positive : 0 < leaf.width := (laid.proper _ (List.mem_map_of_mem within)).positive
  rcases laid.inside _ (List.mem_map_of_mem within) with ⟨index, place, -, below⟩ | ⟨_, none, _⟩
  · refine ⟨index, ?_, place⟩
    have below : 32 * index + leaf.offset + leaf.width ≤ offset + type.extent := below
    rw [Ty.extent] at below
    split at below
    · next reference =>
        rw [aligned reference] at below
        omega
    · next value =>
        rw [type.slots_of_value (Bool.eq_false_iff.mpr value)]
        omega
  · cases none

/-- No two parts of the values of variables share a byte of the layout. The parts of all variables,
down to the members of structs and the elements of arrays of fixed size, are in different bytes of
the layout's slots, those of one variable in the slots of its type from its position on. The value
of a variable is decoded from these parts, packed ones from their own bytes alone, and none of them
overflows its slot. -/
theorem layout_disjoint (vars : List Variable)
    (small : (Ty.wholeEnd vars .start).slots < 2 ^ 64) :
    let layout := Layout.pack vars
    layout.leaves.Pairwise Leaf.Apart ∧
      (∀ leaf ∈ layout.leaves,
        leaf.slot.toNat < layout.slots ∧ leaf.offset + leaf.width ≤ 32 ∧
          (leaf.type.isReference = false →
            ∀ provider, leaf.decode provider = leaf.decodePacked provider)) ∧
      (∀ assignment ∈ layout.assignments, ∀ slot offset,
        assignment.location = .storage slot offset → ∀ leaf ∈ assignment.leaves,
          ∃ index < assignment.var.type.slots, leaf.slot = slot + BitVec.ofNat 256 index) ∧
      ∀ assignment ∈ layout.assignments, ∀ provider : Provider,
        Decoder.Takes provider (State.decode provider assignment) assignment.leaves ∧
          ∀ text offset, (∀ account slot block,
            provider.storage account slot block ≠ .error (Decode.overflow text offset)) →
            Decoder.Avoids (Decode.overflow text offset) (State.decode provider assignment) := by
  have told : (Ty.wholeEnd vars .start).slots ≤ Ty.maxSlots := Nat.le_of_lt_succ small
  obtain ⟨few, laid⟩ := Layout.leaves_laid vars told
  rw [Layout.pack_eq_ofVariables vars small]
  refine ⟨?_, fun leaf within => ?_, fun assignment listed slot offset located => ?_,
    fun assignment listed provider => ?_⟩
  · have largest : Ty.maxSlots ≤ 2 ^ 256 := by decide
    have alone : Area.Disjoint [⟨0, (Layout.ofVariables vars).slots⟩] :=
      ⟨fun area only => List.mem_singleton.mp only ▸ Nat.le_trans few largest,
        List.pairwise_singleton _ _⟩
    have apart := laid.apart _ (Nat.le_refl _) alone
    rwa [List.pairwise_map] at apart
  · obtain ⟨below, room⟩ := Layout.slot_lt few laid within
    exact ⟨below, room, fun packed provider => leaf.decode_packed provider packed room⟩
  · rcases Layout.mem_placeFrom listed with ⟨literal, constant⟩ |
      ⟨member, isMutable, place, room, aligned, storage⟩
    · rw [constant] at located
      cases located
    · rw [storage] at located
      cases located
      intro leaf within
      simp only [Assignment.leaves, storage] at within
      exact slot_own (Ty.members_told told _ member isMutable) room aligned within
  · obtain ⟨var, location⟩ := assignment
    rcases Layout.mem_placeFrom listed with ⟨literal, constant⟩ | ⟨-, -, place, room, -, storage⟩
    · obtain rfl : location = .constant literal := constant
      exact ⟨.pure _, fun _ _ _ => .pure _⟩
    · obtain rfl : location = .storage (BitVec.ofNat 256 place.slot) place.offset := storage
      refine ⟨Decode.ofStorage_takes var.type _ _, fun text offset answers => ?_⟩
      exact Decode.ofStorage_avoids (Decoder.Avoids.readSlot nofun answers) var.type _ _ room

/-- The state variables of a contract with a struct, an enumeration and nested arrays. -/
theorem layout_disjoint_wallet :
    (Ty.wholeEnd Wallet.vars .start).slots < 2 ^ 64 ∧
      (Layout.pack Wallet.vars).leaves.Pairwise Leaf.Apart ∧
      (Layout.pack Wallet.vars).leaves.length = 12 := by
  have small : (Ty.wholeEnd Wallet.vars .start).slots < 2 ^ 64 := by decide
  exact ⟨small, (layout_disjoint Wallet.vars small).1, by decide⟩

end SolTrace
