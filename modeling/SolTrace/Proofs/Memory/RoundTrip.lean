import SolTrace.Proofs.Memory.Representation
import SolTrace.Proofs.Storage.Decoding
import SolTrace.Proofs.Storage.Packing
/-!
Reading values back from memory. A value that is in the compiler's format is what is decoded just
if it can be read: the checks against the end of memory reject nothing but empty byte strings there,
and nothing is misread but pointers to internal functions.
-/
set_option autoImplicit false

namespace SolTrace

namespace Memory

open Decode

/-! ### Words -/

theorem part_lt (word : Word) (high : Bool) {width : Nat} (fits : width ≤ 32) :
    word.part high width < 256 ^ width := by
  cases high with
  | true =>
      have whole : 256 ^ width * 256 ^ (32 - width) = 2 ^ 256 := by
        rw [← Nat.pow_add, Nat.add_sub_cancel' fits]
        decide
      refine Nat.div_lt_of_lt_mul ?_
      rw [Nat.mul_comm, whole]
      exact word.isLt
  | false => exact Nat.mod_lt _ (Nat.pow_pos (by decide))

/-- The bytes that are read of a word are those of a part of it. -/
theorem partBytes (word : Word) (high : Bool) {width : Nat} (fits : width ≤ 32) :
    (if high then word.bytes.take width else word.bytes.drop (32 - width)) =
      bigEndian width (word.part high width) := by
  cases high with
  | true => exact bigEndian_take 32 width word.toNat fits
  | false => exact (bigEndian_drop 32 width word.toNat fits).trans (bigEndian_mod _ _).symm

theorem ofWord_elementary {name : String} {type : Elementary}
    (found : Elementary.ofName? name = some type) (word : Word) :
    ofWord (.elementary name) word = ofElementary (.elementary name)
      (bigEndian type.width (word.part (isLeftAligned (.elementary name)) type.width)) type := by
  have fits := (Elementary.fits_of_ofName? name type found).2
  rw [ofWord, Ty.bytes_elementary name type found, partBytes word _ fits]
  simp only [ofBytes, Ty.elementary?, found]

/-- Pointers to functions are read from the high end of their word. -/
theorem ofWord_function {name : String} {width : Nat}
    (found : Elementary.ofName? name = some (.function width)) (word : Word) (data : List UInt8)
    (length : data.length = width) :
    ofWord (.elementary name) word = .ok (.fixedBytes data) ↔
      word.part true width = ofBigEndian data := by
  have fits : width ≤ 32 := (Elementary.fits_of_ofName? name _ found).2
  have high : isLeftAligned (.elementary name) = true := by
    simp only [isLeftAligned, Ty.elementary?, found]
  rw [ofWord_elementary found, high]
  simp only [ofElementary, Elementary.width, Except.ok.injEq, Value.fixedBytes.injEq]
  constructor
  · rintro rfl
    rw [ofBigEndian_bigEndian, Nat.mod_eq_of_lt (part_lt word true fits)]
  · intro same
    rw [same, ← length, bigEndian_ofBigEndian]

theorem ofWord_value {name : String} {type : Elementary}
    (found : Elementary.ofName? name = some type) (value : Value) (word : Word)
    (has : type.HasWord value) (data : ∀ width, type ≠ .function width)
    (number : word.part type.isHigh type.width = Encoding.number value type.width) :
    ofWord (.elementary name) word = .ok value := by
  have high : isLeftAligned (.elementary name) = type.isHigh := by
    rw [isLeftAligned, Ty.elementary?, found]
    cases type <;> first | rfl | exact absurd rfl (data _)
  have notBytes : type ≠ .bytes := by rintro rfl; cases value <;> exact has.elim
  have notString : type ≠ .string := by rintro rfl; cases value <;> exact has.elim
  have plain : type.Has value := by
    cases type <;> first | exact has | exact absurd rfl (data _) | contradiction
  have fits := (Elementary.fits_of_ofName? name type found).2
  rw [ofWord_elementary found, high, number]
  exact ofElementary_number _ type value plain fits notBytes notString

/-- A value of a value type is read back, but for pointers to functions at the low end. -/
theorem ofWord_eq_ok {type : Ty} {value : Value} {word : Word}
    (holds : Holds .format type value word) :
    ofWord type word = .ok value ↔ Holds .readable type value word := by
  cases type with
  | elementary name =>
      obtain ⟨elementary, found, has, number, -⟩ := holds
      by_cases function : ∃ width, elementary = .function width
      · obtain ⟨width, rfl⟩ := function
        obtain ⟨data, rfl, length⟩ : ∃ data, value = .fixedBytes data ∧ data.length = width := by
          cases value <;> first | exact ⟨_, rfl, has⟩ | exact has.elim
        rw [ofWord_function found word data length]
        constructor
        · intro same
          refine ⟨_, found, has, number, fun _ other equal => ?_⟩
          cases equal
          exact same
        · rintro ⟨other, again, -, -, same⟩
          cases found.symm.trans again
          exact same rfl width rfl
      · have plain : ∀ width, elementary ≠ .function width := fun width equal =>
          function ⟨width, equal⟩
        refine iff_of_true (ofWord_value found value word has plain number) ?_
        exact ⟨_, found, has, number, fun _ width equal => absurd equal (plain width)⟩
  | enum name values =>
      cases value with
      | enum member =>
          refine iff_of_true ?_ holds
          have fits := (Ty.enumWidth_bounds values.length).2
          have found : values[word.part false (Ty.enumWidth values.length)]? = some member := holds
          rw [ofWord, Ty.bytes, partBytes word _ fits, ofBytes, ofBigEndian_bigEndian]
          change Except.ok ((values[word.part false (Ty.enumWidth values.length) %
            256 ^ Ty.enumWidth values.length]?).elim Value.invalid Value.enum) = _
          rw [Nat.mod_eq_of_lt (part_lt word false fits), found]
          rfl
      | _ => exact holds.elim
  | _ => exact holds.elim

/-! ### Byte strings -/

theorem length_of_toNat {word : Word} {length : Nat} (number : word.toNat = length)
    (short : length ≤ maxLength) : Decode.length word = .ok length := by
  rw [← length_ok length short, ← number, BitVec.ofNat_toNat, BitVec.setWidth_eq]

variable {memory : List UInt8} {start : Nat}

/-- Bytes are read back, but for none of them if their length is past the end. -/
theorem memoryBytes_eq_ok {data : List UInt8} (stands : BytesAt .format memory data start)
    (value : List UInt8 → Value) :
    (do return value (← memoryBytes memory start) : Except Error Value) = .ok (value data) ↔
      BytesAt .readable memory data start := by
  have read : memoryBytes memory start =
      if memory.length < start + 32 + data.length then
        fail (.bytesPastMemory data.length start)
      else .ok data := by
    rw [memoryBytes, length_of_toNat stands.length stands.short, ok_bind, stands.data]
    rfl
  rw [read]
  constructor
  · intro decoded
    split at decoded
    · cases decoded
    · exact ⟨stands.short, stands.inside, fun _ => by omega, stands.length, stands.data⟩
  · intro readable
    rw [if_neg (Nat.not_lt.mpr (readable.room (.inr rfl)))]
    rfl

theorem elementaryAt_bytes {demand : Demand} {name : String} {value : Value}
    (found : Elementary.ofName? name = some .bytes) :
    ElementaryAt demand memory name value start ↔
      ∃ data, value = .bytes data ∧ BytesAt demand memory data start := by
  unfold ElementaryAt
  rw [found]
  cases value with
  | bytes data =>
      exact ⟨fun stands => ⟨data, rfl, stands⟩, by rintro ⟨_, ⟨⟩, stands⟩; exact stands⟩
  | _ =>
      refine iff_of_false ?_ (by rintro ⟨_, ⟨⟩, _⟩)
      rintro ⟨-, type, again, has, -⟩
      cases found.symm.trans again
      exact has

theorem elementaryAt_string {demand : Demand} {name : String} {value : Value}
    (found : Elementary.ofName? name = some .string) :
    ElementaryAt demand memory name value start ↔
      ∃ text, value = .string text ∧ BytesAt demand memory (Text.utf8 text) start := by
  unfold ElementaryAt
  rw [found]
  cases value with
  | string text =>
      exact ⟨fun stands => ⟨text, rfl, stands⟩, by rintro ⟨_, ⟨⟩, stands⟩; exact stands⟩
  | _ =>
      refine iff_of_false ?_ (by rintro ⟨_, ⟨⟩, _⟩)
      rintro ⟨-, type, again, has, -⟩
      cases found.symm.trans again
      exact has

theorem elementaryAt_word {demand : Demand} {name : String} {value : Value}
    (notBytes : Elementary.ofName? name ≠ some .bytes)
    (notString : Elementary.ofName? name ≠ some .string) :
    ElementaryAt demand memory name value start ↔
      start ≤ memory.length ∧ Holds demand (.elementary name) value (memoryWord memory start) := by
  unfold ElementaryAt
  split
  · next found => exact absurd found notBytes
  · next found => exact absurd found notString
  · exact Iff.rfl

theorem ofMemoryBytes_eq_ok {name : String} {value : Value}
    (stands : ElementaryAt .format memory name value start) :
    ofMemoryBytes (.elementary name) memory start = .ok value ↔
      ElementaryAt .readable memory name value start := by
  by_cases bytes : Elementary.ofName? name = some .bytes
  · obtain ⟨data, rfl, format⟩ := (elementaryAt_bytes bytes).mp stands
    rw [elementaryAt_bytes bytes, ofMemoryBytes, Ty.elementary?, bytes]
    simp only [Value.bytes.injEq, exists_eq_left']
    exact memoryBytes_eq_ok format Value.bytes
  · by_cases string : Elementary.ofName? name = some .string
    · obtain ⟨text, rfl, format⟩ := (elementaryAt_string string).mp stands
      rw [elementaryAt_string string, ofMemoryBytes, Ty.elementary?, string]
      simp only [Value.string.injEq, exists_eq_left']
      have decoded := memoryBytes_eq_ok format fun data => .string (Text.ofUtf8Lossy data)
      rwa [Text.ofUtf8Lossy_utf8] at decoded
    · rw [elementaryAt_word bytes string] at stands ⊢
      rw [← ofWord_eq_ok stands.2, and_iff_right stands.1, ofMemoryBytes]
      split
      · contradiction
      · contradiction
      · exact Iff.rfl

/-! ### Areas -/

theorem cons_eq_ok {α : Type} {first : Except Error α} {others : Except Error (List α)} {value : α}
    {values : List α} :
    (do return (← first) :: (← others) : Except Error (List α)) = .ok (value :: values) ↔
      first = .ok value ∧ others = .ok values := by
  cases first <;> cases others <;> simp [pure, Except.pure]

theorem mapM_eq_ok {α β : Type} (read : α → Except Error β) (items : List α) (values : List β)
    (same : values.length = items.length) :
    items.mapM read = .ok values ↔ ∀ (i : Nat) (item : α) (value : β), items[i]? = some item →
      values[i]? = some value → read item = .ok value := by
  induction items generalizing values with
  | nil =>
      rw [List.length_eq_zero_iff.mp same]
      simp [pure, Except.pure]
  | cons item items ih =>
      obtain - | ⟨value, values⟩ := values
      · cases same
      · rw [List.mapM_cons, cons_eq_ok, ih values (Nat.succ.inj same)]
        constructor
        · rintro ⟨here, others⟩ i first second found foundThen
          cases i with
          | zero =>
              cases found
              cases foundThen
              exact here
          | succ i => exact others i first second found foundThen
        · intro each
          exact ⟨each 0 item value rfl rfl, fun i => each (i + 1)⟩

theorem range_mapM_eq_ok {α : Type} (read : Nat → Except Error α) (values : List α) :
    (List.range values.length).mapM read = .ok values ↔
      ∀ (i : Nat) (value : α), values[i]? = some value → read i = .ok value := by
  rw [mapM_eq_ok read _ _ List.length_range.symm]
  constructor
  · intro each i value found
    refine each i i value ?_ found
    exact List.getElem?_range (List.getElem?_eq_some_iff.mp found).1
  · intro each i j value ranged found
    rw [List.getElem?_range (List.getElem?_eq_some_iff.mp found).1] at ranged
    cases ranged
    exact each i value found

theorem make_eq_ok {α : Type} {make : α → Value} (injective : Function.Injective make)
    {read : Except Error α} {part : α} :
    (do return make (← read) : Except Error Value) = .ok (make part) ↔ read = .ok part := by
  cases read <;> simp [pure, Except.pure, injective.eq_iff]

/-- Values of a type are read back if they can be read. -/
def ReadBack (memory : List UInt8) (type : Ty) : Prop :=
  ∀ value start, Represents .format memory type value start →
    (ofMemory memory type start = .ok value ↔ Represents .readable memory type value start)

section

variable (addressable : memory.length ≤ Text.maxNat64)
include addressable

theorem ofMemoryWord_eq_ok {type : Ty} (readBack : ReadBack memory type) {value : Value}
    {word : Word}
    (inWord : InWord type (Represents .format memory type value) (Holds .format type value) word) :
    ofMemoryWord type (ofMemory memory type) word = .ok value ↔
      InWord type (Represents .readable memory type value) (Holds .readable type value) word := by
  unfold InWord at inWord ⊢
  unfold ofMemoryWord
  split
  · next reference =>
      rw [if_pos reference] at inWord
      have pointed : pointer word = .ok word.toNat :=
        if_pos (Nat.le_trans inWord.inside addressable)
      rw [pointed, ok_bind]
      exact readBack value word.toNat inWord
  · next plain =>
      rw [if_neg plain] at inWord
      exact ofWord_eq_ok inWord

theorem elements_eq_ok {base : Ty} (readBack : ReadBack memory base) {items : List Value}
    {first : Nat} (inWords : ∀ i item, items[i]? = some item →
      InWord base (Represents .format memory base item) (Holds .format base item)
        (memoryWord memory (first + 32 * i))) :
    ((List.range items.length).mapM fun i =>
        ofMemoryWord base (ofMemory memory base) (memoryWord memory (first + 32 * i))) =
        .ok items ↔
      ∀ i item, items[i]? = some item →
        InWord base (Represents .readable memory base item) (Holds .readable base item)
          (memoryWord memory (first + 32 * i)) := by
  rw [range_mapM_eq_ok]
  exact forall_congr' fun i => forall_congr' fun item => forall_congr' fun found =>
    ofMemoryWord_eq_ok addressable readBack (inWords i item found)

theorem members_eq_ok {members : List Variable}
    (readBack : ∀ member ∈ members, ReadBack memory member.type)
    {fields : List (String × Value)} {position : Nat}
    (represented : MembersRepresented .format memory members fields position) :
    membersOfMemory memory members position = .ok fields ↔
      MembersRepresented .readable memory members fields position := by
  induction members generalizing fields position with
  | nil =>
      cases represented
      exact iff_of_true rfl rfl
  | cons member members ih =>
      obtain ⟨here, others⟩ := List.forall_mem_cons.mp readBack
      obtain ⟨_, name, _, type, _, _, _, _⟩ := member
      rw [membersOfMemory]
      unfold MembersRepresented at represented ⊢
      split
      · next mapping =>
          rw [if_pos mapping] at represented
          exact ih others represented
      · next plain =>
          rw [if_neg plain] at represented
          obtain - | ⟨⟨field, value⟩, fields⟩ := fields
          · exact represented.elim
          · obtain ⟨rfl, inWord, rest⟩ := represented
            constructor
            · intro decoded
              obtain ⟨first, read, decoded⟩ := bind_eq_ok.mp decoded
              obtain ⟨left, readThen, same⟩ := bind_eq_ok.mp decoded
              cases same
              exact ⟨rfl, (ofMemoryWord_eq_ok addressable here inWord).mp read,
                (ih others rest).mp readThen⟩
            · rintro ⟨-, read, readThen⟩
              rw [(ofMemoryWord_eq_ok addressable here inWord).mpr read, ok_bind,
                (ih others rest).mpr readThen]
              rfl

theorem struct_eq_ok {name : String} {members : List Variable}
    (readBack : ∀ member ∈ members, ReadBack memory member.type) :
    ReadBack memory (.struct name members) := by
  intro value start represented
  rw [ofMemory, if_neg (Nat.not_lt.mpr represented.inside)]
  cases value with
  | struct fields =>
      obtain ⟨inside, represented⟩ := represented
      have made : Function.Injective Value.struct := fun _ _ => Value.struct.inj
      exact ((make_eq_ok made).trans (members_eq_ok addressable readBack represented)).trans
        (and_iff_right inside).symm
  | _ => exact represented.elim

theorem array_eq_ok {base : Ty} {length : Option Nat} (readBack : ReadBack memory base) :
    ReadBack memory (.array base length) := by
  intro value start represented
  rw [ofMemory, if_neg (Nat.not_lt.mpr represented.inside)]
  cases value with
  | array items =>
      have made : Function.Injective Value.array := fun _ _ => Value.array.inj
      cases length with
      | none =>
          obtain ⟨short, inside, room, number, inWords⟩ := represented
          have counted : memoryElements memory start none = .ok (items.length, start + 32) := by
            rw [memoryElements, length_of_toNat number short]
            rfl
          have small : ¬ memory.length < items.length * 32 := by
            cases items with
            | nil => simp
            | cons item items =>
                have := room (List.cons_ne_nil item items)
                omega
          rw [counted, ok_bind]
          dsimp only
          rw [if_neg small, make_eq_ok made, elements_eq_ok addressable readBack inWords]
          exact ⟨fun readable => ⟨short, inside, room, number, readable⟩,
            fun readable => readable.2.2.2.2⟩
      | some length =>
          obtain ⟨rfl, inside, inWords⟩ := represented
          have small : ¬ memory.length < items.length * 32 := by omega
          rw [memoryElements, ok_bind]
          dsimp only
          rw [if_neg small, make_eq_ok made, elements_eq_ok addressable readBack inWords]
          exact ⟨fun readable => ⟨rfl, inside, readable⟩, fun readable => readable.2.2⟩
  | _ => cases length <;> exact represented.elim

theorem readBack (type : Ty) : ReadBack memory type := by
  induction type using Ty.induction with
  | elementary name =>
      intro value start represented
      rw [ofMemory, if_neg (Nat.not_lt.mpr represented.inside)]
      exact ofMemoryBytes_eq_ok represented
  | enum name values =>
      intro value start represented
      rw [ofMemory, if_neg (Nat.not_lt.mpr represented.inside)]
      obtain ⟨inside, holds⟩ := represented
      exact (ofWord_eq_ok holds).trans (and_iff_right inside).symm
  | mapping key value => exact fun _ _ represented => represented.elim
  | struct name members ih => exact struct_eq_ok addressable ih
  | array base length ih => exact array_eq_ok addressable ih

end

/-! ### Variables in memory -/

/-- A variable in memory is decoded from where its word of the stack points. -/
theorem decode_pointed (provider : Provider) {assignment : Assignment} {state : State}
    {position : Nat} {word : Word} (located : assignment.location = .memory position)
    (stacked : state.snapshot.stack[position]? = some word)
    (small : word.toNat ≤ Text.maxNat64) :
    (State.decode provider assignment).run.run state =
      (ofMemory state.snapshot.memory assignment.var.type word.toNat, state) := by
  have read : state.stackWord position = .ok word := by rw [State.stackWord, stacked]
  have pointed : pointer word = .ok word.toNat := if_pos small
  obtain ⟨var, location⟩ := assignment
  cases located
  change ((do
    let start ← pointer (← state.stackWord position)
    ofMemory state.snapshot.memory var.type start : Except Error Value), state) = _
  rw [read, ok_bind, pointed, ok_bind]

/-- A value in memory is decoded, from a pointer and from a variable with that pointer on the stack,
just if it can be read. -/
theorem memory_roundTrip {memory : List UInt8} (addressable : memory.length ≤ Text.maxNat64)
    {type : Ty} {value : Value} {start : Nat}
    (represented : Represents .format memory type value start) :
    (ofMemory memory type start = .ok value ↔ Represents .readable memory type value start) ∧
      ∀ (provider : Provider) (assignment : Assignment) (state : State) (position : Nat)
        (word : Word), assignment.location = .memory position → assignment.var.type = type →
        state.snapshot.memory = memory → state.snapshot.stack[position]? = some word →
        word.toNat = start →
        ((State.decode provider assignment).run.run state = (.ok value, state) ↔
          Represents .readable memory type value start) := by
  have decoded := readBack addressable type value start represented
  refine ⟨decoded, ?_⟩
  rintro provider assignment state position word located rfl rfl stacked rfl
  have small := Nat.le_trans represented.inside addressable
  rw [decode_pointed provider located stacked small, Prod.mk.injEq, and_iff_left rfl]
  exact decoded

/-! ### A struct in memory, and an unset byte string -/

namespace Sample

/-- A struct with a list and a text, and a mapping that is left out in memory. -/
def type : Ty :=
  .struct "S" [
    ⟨1, "list", .memory, .array (.elementary "bytes4") none, 0, false, .mutable, none⟩,
    ⟨2, "owner", .memory, .elementary "address", 0, false, .mutable, none⟩,
    ⟨3, "seen", .memory, .mapping (.elementary "address") (.elementary "bool"), 0, false,
      .mutable, none⟩,
    ⟨4, "name", .memory, .elementary "string", 0, false, .mutable, none⟩]

def value : Value :=
  .struct [("list", .array [.fixedBytes [0x33, 0x44, 0x55, 0x66]]), ("owner", .address 0x22),
    ("name", .string "sdb")]

/-- The text is last in memory, which ends with it. -/
def contents : List UInt8 :=
  ([0x60, 0x22, 0xA0, 1, 0x33445566 <<< 224, 3] : List Word).flatMap Word.bytes ++
    [0x73, 0x64, 0x62]

theorem represented (demand : Demand) : Represents demand contents type value 0 := by
  have list : Represents demand contents (.array (.elementary "bytes4") none)
      (.array [.fixedBytes [0x33, 0x44, 0x55, 0x66]]) 0x60 := by
    refine ⟨by decide, by decide +kernel, fun _ => by decide +kernel, by decide +kernel, ?_⟩
    rintro (- | i) item ⟨⟩
    have element : Holds demand (.elementary "bytes4") (.fixedBytes [0x33, 0x44, 0x55, 0x66])
        (memoryWord contents 0x80) :=
      ⟨.fixedBytes 4, by decide +kernel, rfl, by decide +kernel, by rintro _ _ ⟨⟩⟩
    exact element
  have owner : Holds demand (.elementary "address") (.address 0x22) (memoryWord contents 0x20) :=
    ⟨.address, by decide +kernel, trivial, by decide +kernel, by rintro _ _ ⟨⟩⟩
  have name : BytesAt demand contents (Text.utf8 "sdb") 0xA0 :=
    ⟨by decide +kernel, by decide +kernel, fun _ => by decide +kernel, by decide +kernel,
      by decide +kernel⟩
  exact ⟨by decide +kernel, rfl, list, rfl, owner, rfl, name, rfl⟩

/-- Memory as a contract finds it: two words of scratch space and the pointer to free memory. The
zero slot comes next, and it has not been touched. -/
def fresh : List UInt8 :=
  ([0, 0, 0x80] : List Word).flatMap Word.bytes

theorem unset_represented : Represents .format fresh (.elementary "bytes") (.bytes []) 0x60 := by
  have stands : BytesAt .format fresh [] 0x60 :=
    ⟨by decide, by decide +kernel, by simp, by decide +kernel, rfl⟩
  exact stands

theorem not_unset_readable :
    ¬ Represents .readable fresh (.elementary "bytes") (.bytes []) 0x60 := by
  intro represented
  have stands : BytesAt .readable fresh [] 0x60 := represented
  exact absurd (stands.room (.inr rfl)) (by decide +kernel)

end Sample

/-- The struct is decoded, but the unset byte string is not. -/
theorem memory_roundTrip_sample :
    Decode.ofMemory Sample.contents Sample.type 0 = .ok Sample.value ∧
      Represents .format Sample.fresh (.elementary "bytes") (.bytes []) 0x60 ∧
      Decode.ofMemory Sample.fresh (.elementary "bytes") 0x60 ≠ .ok (.bytes []) := by
  have decoded := memory_roundTrip (by decide +kernel) (Sample.represented .format)
  have unset := memory_roundTrip (by decide +kernel) Sample.unset_represented
  exact ⟨decoded.1.mpr (Sample.represented .readable), Sample.unset_represented,
    fun read => Sample.not_unset_readable (unset.1.mp read)⟩

end Memory

end SolTrace
