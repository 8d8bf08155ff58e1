import SolTrace.Proofs.Memory.RoundTrip
/-!
Value types. The bytes of a value decide it, whether they are in a storage slot, in a word of the
stack or in a word of memory, and whatever stands beside them.
-/
set_option autoImplicit false

namespace SolTrace

/-! ### Values -/

namespace Elementary

/-- The types whose values are a fixed number of bytes. Fixed-point numbers are not decoded. -/
def IsValue : Elementary → Prop
  | .bytes | .string | .fixed _ => False
  | _ => True

/-- Whether bytes of the width of the type stand for a value. -/
def Denotes (bytes : List UInt8) : Elementary → Value → Prop
  | .bool, .bool value => value = true ↔ ∃ byte ∈ bytes, byte ≠ 0
  | .address, .address account => account.toNat = ofBigEndian bytes
  | .uint _, .uint number => number.toNat = ofBigEndian bytes
  | .int width, .int number =>
      -(256 ^ width : Nat) ≤ 2 * number ∧ 2 * number < (256 ^ width : Nat) ∧
        number % (256 ^ width : Nat) = ofBigEndian bytes
  | .fixedBytes _, .fixedBytes data => data = bytes
  | .function _, .fixedBytes data => data = bytes
  | _, _ => False

end Elementary

namespace Ty

/-- The value types. An enumeration is one, whatever number of members it has. -/
def IsValue : Ty → Prop
  | .elementary name => ∃ type, Elementary.ofName? name = some type ∧ type.IsValue
  | .enum _ _ => True
  | _ => False

/-- Whether bytes of the width of the type stand for a value. A number that no member has is
invalid. -/
def Denotes (bytes : List UInt8) : Ty → Value → Prop
  | .elementary name, value =>
      ∃ type, Elementary.ofName? name = some type ∧ type.Denotes bytes value
  | .enum _ values, .enum member => values[ofBigEndian bytes]? = some member
  | .enum _ values, .invalid => values.length ≤ ofBigEndian bytes
  | _, _ => False

/-- The types with values at the high end of a word: bytes of a fixed number, and pointers to
functions. -/
def StandsHigh (type : Ty) : Prop :=
  ∃ width, type.elementary? = some (.fixedBytes width) ∨
    type.elementary? = some (.function width)

/-- Whether a word holds the bytes of a value at the end where the type has them, with any bytes in
the rest. -/
def StandsIn (type : Ty) (bytes word : List UInt8) : Prop :=
  ∃ padding, type.StandsHigh ∧ word = bytes ++ padding ∨
    ¬ type.StandsHigh ∧ word = padding ++ bytes

theorem IsValue.not_reference {type : Ty} (isValue : type.IsValue) : type.isReference = false := by
  cases type with
  | elementary name =>
      obtain ⟨type, found, plain⟩ := isValue
      simp only [isReference, found]
      cases type <;> first | rfl | exact plain.elim
  | enum name values => rfl
  | _ => exact isValue.elim

theorem IsValue.elementary_ne {type : Ty} (isValue : type.IsValue) :
    type.elementary? ≠ some .bytes ∧ type.elementary? ≠ some .string := by
  cases type with
  | elementary name =>
      obtain ⟨type, found, plain⟩ := isValue
      rw [elementary?, found]
      constructor <;> rintro ⟨⟩ <;> exact plain
  | enum name values => simp [elementary?]
  | _ => exact isValue.elim

end Ty

namespace Decode

/-- Any bytes of the width of an elementary value type stand for a value, which is decoded. -/
theorem ofElementary_denotes (type : Ty) {elementary : Elementary} (isValue : elementary.IsValue)
    (fits : elementary.width ≤ 32) (bytes : List UInt8) (length : bytes.length = elementary.width) :
    ∃ value, ofElementary type bytes elementary = .ok value ∧ elementary.Denotes bytes value := by
  have small := ofBigEndian_lt bytes
  cases elementary with
  | bool =>
      refine ⟨_, rfl, ?_⟩
      show bytes.any (· != 0) = true ↔ _
      simp
  | address =>
      refine ⟨_, rfl, ?_⟩
      rw [length] at small
      exact Nat.mod_eq_of_lt small
  | uint width =>
      refine ⟨_, rfl, ?_⟩
      have room : 256 ^ bytes.length ≤ 256 ^ 32 :=
        Nat.pow_le_pow_right (by decide) (by rw [length]; exact fits)
      exact Nat.mod_eq_of_lt (Nat.lt_of_lt_of_le small room)
  | int width =>
      refine ⟨_, rfl, ?_⟩
      obtain rfl : bytes.length = width := length
      show -_ ≤ 2 * signed bytes.length bytes ∧ 2 * signed bytes.length bytes < _ ∧
        signed bytes.length bytes % _ = _
      rw [signed_eq bytes fits]
      by_cases negative : 256 ^ bytes.length ≤ 2 * ofBigEndian bytes
      · rw [if_pos negative]
        refine ⟨by omega, by omega, ?_⟩
        rw [Int.sub_emod_right]
        exact Int.emod_eq_of_lt (by omega) (by omega)
      · rw [if_neg negative]
        exact ⟨by omega, by omega, Int.emod_eq_of_lt (by omega) (by omega)⟩
  | fixedBytes width => exact ⟨_, rfl, rfl⟩
  | function width => exact ⟨_, rfl, rfl⟩
  | bytes => exact isValue.elim
  | string => exact isValue.elim
  | fixed width => exact isValue.elim

/-- Any bytes of the width of a value type stand for a value, which is decoded. -/
theorem ofBytes_denotes {type : Ty} (isValue : type.IsValue) (bytes : List UInt8)
    (length : bytes.length = type.bytes) :
    ∃ value, ofBytes type bytes = .ok value ∧ type.Denotes bytes value := by
  cases type with
  | elementary name =>
      obtain ⟨type, found, plain⟩ := isValue
      rw [Ty.bytes_elementary name type found] at length
      have fits := (Elementary.fits_of_ofName? name type found).2
      obtain ⟨value, decoded, denotes⟩ :=
        ofElementary_denotes (.elementary name) plain fits bytes length
      refine ⟨value, ?_, type, found, denotes⟩
      simp only [ofBytes, Ty.elementary?, found, decoded]
  | enum name values =>
      cases found : values[ofBigEndian bytes]? with
      | some member => exact ⟨.enum member, by rw [ofBytes, found]; rfl, found⟩
      | none => exact ⟨.invalid, by rw [ofBytes, found]; rfl, List.getElem?_eq_none_iff.mp found⟩
  | _ => exact isValue.elim

/-! ### Words -/

theorem isLeftAligned_iff (type : Ty) : isLeftAligned type = true ↔ type.StandsHigh := by
  rw [isLeftAligned]
  split
  · next width found => exact iff_of_true rfl ⟨width, .inl found⟩
  · next width found => exact iff_of_true rfl ⟨width, .inr found⟩
  · next bytes function =>
      refine iff_of_false Bool.false_ne_true ?_
      rintro ⟨width, found | found⟩
      · exact bytes width found
      · exact function width found

/-- The bytes of a word that are decoded are those of the value. -/
theorem ofWord_stands {type : Ty} {bytes : List UInt8} {word : Word}
    (length : bytes.length = type.bytes) (stands : type.StandsIn bytes word.bytes) :
    ofWord type word = ofBytes type bytes := by
  rw [ofWord]
  rcases stands with ⟨padding, ⟨high, whole⟩ | ⟨low, whole⟩⟩
  · rw [if_pos ((isLeftAligned_iff type).mpr high), whole, ← length, List.take_left]
  · have all := congrArg List.length whole
    rw [Word.bytes_length, List.length_append] at all
    have rest : 32 - type.bytes = padding.length := by omega
    rw [if_neg (mt (isLeftAligned_iff type).mp low), whole, rest, List.drop_left]

/-- The bytes of a packed value are those between what is before and what is behind it. -/
theorem packedBytes_between {word : Word} {high bytes low : List UInt8}
    (whole : word.bytes = high ++ bytes ++ low) :
    low.length + bytes.length ≤ 32 ∧ packedBytes word low.length bytes.length = bytes := by
  have all := congrArg List.length whole
  rw [Word.bytes_length, List.length_append, List.length_append] at all
  have start : 32 - low.length - bytes.length = high.length := by omega
  refine ⟨by omega, ?_⟩
  rw [packedBytes, start, whole, List.append_assoc, List.drop_left, List.take_left]

/-- The 32 bytes of memory at a position. Past its end there are zeros. -/
def bytesAt (memory : List UInt8) (start : Nat) : List UInt8 :=
  (memory.drop start ++ List.replicate 32 0).take 32

theorem memoryWord_bytes (memory : List UInt8) (start : Nat) :
    (memoryWord memory start).bytes = bytesAt memory start := by
  have filled : (memory.drop start).take 32 ++
      List.replicate (32 - ((memory.drop start).take 32).length) 0 = bytesAt memory start := by
    rw [bytesAt, List.take_append, List.take_replicate, List.length_take]
    congr 2
    omega
  have length : (bytesAt memory start).length = 32 := by
    rw [bytesAt, List.length_take, List.length_append, List.length_replicate]
    omega
  have small := ofBigEndian_lt (bytesAt memory start)
  rw [length] at small
  have number : (memoryWord memory start).toNat = ofBigEndian (bytesAt memory start) := by
    rw [memoryWord, filled, Word.ofBytes, BitVec.toNat_ofNat]
    exact Nat.mod_eq_of_lt small
  rw [Word.bytes, number, ← length, bigEndian_ofBigEndian]

/-! ### The three places -/

variable (type : Ty) (bytes : List UInt8) (value : Value)

/-- What is read where the bytes of a value are. Nothing else in the slot or in the word matters. -/
structure ReadAlike : Prop where
  /-- In a storage slot, at any offset. -/
  storage : ∀ (provider : Provider) (state : State) (var : Variable) (slot word : Word)
    (high low : List UInt8), var.type = type →
    ((State.readSlot provider slot).run.run state).1 = .ok word →
    word.bytes = high ++ bytes ++ low →
    ((State.decode provider ⟨var, .storage slot low.length⟩).run.run state).1 = .ok value
  /-- In a word of the stack. -/
  stack : ∀ (provider : Provider) (state : State) (var : Variable) (position : Nat) (word : Word),
    var.type = type → var.location ≠ .calldata →
    state.snapshot.stack[position]? = some word → type.StandsIn bytes word.bytes →
    ((State.decode provider ⟨var, .stack position⟩).run.run state).1 = .ok value
  /-- In a word of memory that an element or a member takes. -/
  memory : ∀ (memory : List UInt8) (start : Nat) (follow : Nat → Except Error Value),
    type.StandsIn bytes (bytesAt memory start) →
    ofMemoryWord type follow (memoryWord memory start) = .ok value
  /-- In a word of memory that the stack points to. -/
  pointed : ∀ (provider : Provider) (state : State) (var : Variable) (position : Nat)
    (word : Word), var.type = type → state.snapshot.stack[position]? = some word →
    word.toNat ≤ Text.maxNat64 → word.toNat ≤ state.snapshot.memory.length →
    type.StandsIn bytes (bytesAt state.snapshot.memory word.toNat) →
    ((State.decode provider ⟨var, .memory position⟩).run.run state).1 = .ok value

/-- Some bytes from a position up to another one, both of which are inside. -/
structure Slice (whole : List UInt8) (start stop : Nat) (part : List UInt8) : Prop where
  ordered : start ≤ stop
  inside : stop ≤ whole.length
  part_eq : part = (whole.take stop).drop start

/-- A packed value is cut out between the ends that its offset and its width give. -/
theorem packedBytes_slice (word : Word) {offset width : Nat} (inside : offset + width ≤ 32) :
    Slice word.bytes (32 - offset - width) (32 - offset) (packedBytes word offset width) := by
  refine ⟨by omega, by rw [Word.bytes_length]; omega, ?_⟩
  rw [packedBytes, List.take_drop]
  congr 2
  omega

theorem take_slice (word : Word) {width : Nat} (fits : width ≤ 32) :
    Slice word.bytes 0 width (word.bytes.take width) :=
  ⟨Nat.zero_le _, by rw [Word.bytes_length]; exact fits, rfl⟩

theorem drop_slice (word : Word) (width : Nat) :
    Slice word.bytes (32 - width) 32 (word.bytes.drop (32 - width)) := by
  have whole := word.bytes_length
  exact ⟨by omega, by omega, by rw [List.take_of_length_le (by omega)]⟩

/-- What is cut out of words and of memory is inside them. A packed value that is not inside its
slot is refused before the slot is read. -/
structure CutInside : Prop where
  storage : ∀ (word : Word) (offset : Nat), offset + type.bytes ≤ 32 →
    Slice word.bytes (32 - offset - type.bytes) (32 - offset) (packedBytes word offset type.bytes)
  refused : ∀ (provider : Provider) (state : State) (slot : Word) (offset : Nat),
    32 < offset + type.bytes → (ofStorage provider type slot offset).run.run state =
      (.error (.decode (.overflowsSlot type.text offset)), state)
  high : ∀ word : Word, Slice word.bytes 0 type.bytes (word.bytes.take type.bytes)
  low : ∀ word : Word, Slice word.bytes (32 - type.bytes) 32 (word.bytes.drop (32 - type.bytes))
  memory : ∀ (memory : List UInt8) (offset : Nat), offset < memory.length →
    Slice memory offset (min memory.length (offset + 32)) ((memory.drop offset).take 32) ∧
      min memory.length (offset + 32) - offset ≤ 32
  address : type.elementary? = some .address → type.bytes = 20

variable {type bytes value}

/-- What is not a byte string is kept in a part of one slot. -/
theorem ofSlot_packed (notBytes : type.elementary? ≠ some .bytes)
    (notString : type.elementary? ≠ some .string) (provider : Provider) (slot : Word)
    (offset : Nat) :
    ofSlot provider type slot offset =
      if 32 < offset + type.bytes then throw (.decode (.overflowsSlot type.text offset))
      else State.readSlot provider slot >>= fun word =>
        Decoder.lift (ofBytes type (packedBytes word offset type.bytes)) := by
  rw [ofSlot]
  split
  · next bytes => exact absurd bytes notBytes
  · next string => exact absurd string notString
  · rfl

/-- A value type is kept in a part of one slot. -/
theorem ofStorage_value (isValue : type.IsValue) (provider : Provider) (slot : Word)
    (offset : Nat) :
    ofStorage provider type slot offset =
      if 32 < offset + type.bytes then throw (.decode (.overflowsSlot type.text offset))
      else State.readSlot provider slot >>= fun word =>
        Decoder.lift (ofBytes type (packedBytes word offset type.bytes)) := by
  have one : ofStorage provider type slot offset = ofSlot provider type slot offset := by
    cases type with
    | elementary name => rw [ofStorage]
    | enum name values => rw [ofStorage]
    | _ => exact isValue.elim
  obtain ⟨notBytes, notString⟩ := isValue.elementary_ne
  rw [one, ofSlot_packed notBytes notString]

theorem ofMemory_value (isValue : type.IsValue) (memory : List UInt8) {start : Nat}
    (inside : start ≤ memory.length) :
    ofMemory memory type start = ofWord type (memoryWord memory start) := by
  obtain ⟨notBytes, notString⟩ := isValue.elementary_ne
  have word : ofMemoryBytes type memory start = ofWord type (memoryWord memory start) := by
    rw [ofMemoryBytes]
    split
    · next bytes => exact absurd bytes notBytes
    · next string => exact absurd string notString
    · rfl
  cases type with
  | elementary name => rw [ofMemory, if_neg (Nat.not_lt.mpr inside), word]
  | enum name values => rw [ofMemory, if_neg (Nat.not_lt.mpr inside), word]
  | _ => exact isValue.elim

/-- A variable on the stack that is no reference is decoded from its word. -/
theorem decode_stacked (provider : Provider) {var : Variable} {state : State} {position : Nat}
    {word : Word} (plain : var.type.isReference = false) (known : var.location ≠ .calldata)
    (stacked : state.snapshot.stack[position]? = some word) :
    (State.decode provider ⟨var, .stack position⟩).run.run state =
      (ofWord var.type word, state) := by
  have read : state.stackWord position = .ok word := by rw [State.stackWord, stacked]
  obtain ⟨id, name, location, type, scope, isState, mutability, value⟩ := var
  have run (decode : Word → Decoder Value) :
      (Decoder.lift (state.stackWord position) >>= decode).run.run state =
        (decode word).run.run state := by
    rw [read]
    rfl
  cases location with
  | calldata => exact absurd rfl known
  | storage =>
      refine (run fun word => if type.isReference then ofStorage provider type word 0
        else Decoder.lift (ofWord type word)).trans ?_
      rw [if_neg (Bool.eq_false_iff.mp plain)]
      rfl
  | stack => exact run fun word => Decoder.lift (ofWord type word)
  | memory => exact run fun word => Decoder.lift (ofWord type word)

/-- Bytes that are decoded to a value are read alike in all places. -/
theorem readAlike (isValue : type.IsValue) (length : bytes.length = type.bytes)
    (decoded : ofBytes type bytes = .ok value) : ReadAlike type bytes value := by
  have inWord {word : Word} (stands : type.StandsIn bytes word.bytes) :
      ofWord type word = .ok value := (ofWord_stands length stands).trans decoded
  have plain := isValue.not_reference
  constructor
  · rintro provider state var slot word high low rfl read whole
    obtain ⟨fits, packed⟩ := packedBytes_between whole
    rw [length] at fits packed
    show ((ofStorage provider var.type slot low.length).run.run state).1 = _
    rw [ofStorage_value isValue, if_neg (Nat.not_lt.mpr fits), Decoder.run_bind]
    cases answered : (State.readSlot provider slot).run.run state with
    | mk result after =>
        rw [answered] at read
        obtain rfl : result = .ok word := read
        show ofBytes var.type (packedBytes word low.length var.type.bytes) = _
        rw [packed, decoded]
  · rintro provider state var position word rfl known stacked stands
    rw [decode_stacked provider plain known stacked]
    exact inWord stands
  · intro memory start follow stands
    rw [← memoryWord_bytes] at stands
    rw [ofMemoryWord, plain]
    exact inWord stands
  · rintro provider state var position word rfl stacked small inside stands
    rw [← memoryWord_bytes] at stands
    rw [Memory.decode_pointed provider rfl stacked small, ofMemory_value isValue _ inside]
    exact inWord stands

theorem cutInside (isValue : type.IsValue) : CutInside type := by
  obtain ⟨positive, fits⟩ := type.bytes_bounds
  constructor
  · intro word offset inside
    exact packedBytes_slice word inside
  · intro provider state slot offset outside
    rw [ofStorage_value isValue, if_pos outside]
    rfl
  · intro word
    exact take_slice word fits
  · intro word
    exact drop_slice word type.bytes
  · intro memory offset inside
    refine ⟨⟨by omega, by omega, ?_⟩, by omega⟩
    rw [List.take_drop, Nat.add_comm, Nat.min_comm, ← List.take_eq_take_min]
  · intro address
    cases type with
    | elementary name => exact Ty.bytes_elementary name .address address
    | _ => cases address

end Decode

/-- Value types are read alike from storage, from the stack and from memory. Any bytes of the
width of the type stand for a value, which is what is read wherever they are, and nothing outside of
words and of memory is looked at. -/
theorem valueTypes_readAlike (type : Ty) (bytes : List UInt8) (isValue : type.IsValue)
    (length : bytes.length = type.bytes) :
    (∃ value, type.Denotes bytes value ∧ Decode.ReadAlike type bytes value) ∧
      Decode.CutInside type := by
  obtain ⟨value, decoded, denotes⟩ := Decode.ofBytes_denotes isValue bytes length
  exact ⟨⟨value, denotes, Decode.readAlike isValue length decoded⟩, Decode.cutInside isValue⟩

/-! ### A negative number beside other bits -/

namespace Crowded

def bytes : List UInt8 := [0xFF, 0x85]

def var : Variable :=
  ⟨1, "delta", .stack, .elementary "int16", 0, false, .mutable, none⟩

/-- The number at the low end of a word that has other bits before it. -/
def word : Word := 0x7A7A7A7A00000000000000000000000000000000000000000000000000C1FF85

/-- The number in a slot, with three bytes behind it. -/
def slot : Word := 0x7A7A7A7A0000000000000000000000000000000000000000000000FF85C1C2C3

/-- Memory begins with the word. The number ends its second word. -/
def state : State where
  block := 0
  nocache := false
  snapshot := ⟨[word], word.bytes ++ List.replicate 30 0x7A ++ bytes, (∅ : Storage).insert 0 slot⟩
  address := some (.creation 0)
  cache := ∅
  reads := []

/-- A chain that knows nothing. -/
def chain : Provider where
  transaction hash := .error (.unresolvedTarget hash)
  trace _ := .error (.provider "no trace")
  code _ := .error (.provider "no code")
  storage _ _ _ := .error (.provider "no storage")

/-- The slot is known to the trace. -/
theorem slot_read : ((State.readSlot chain 0).run.run state).1 = .ok slot := by
  have known : state.snapshot.storage[(0 : Word)]? = some slot :=
    Std.ExtTreeMap.getElem?_insert_self
  obtain ⟨after, run, -⟩ := State.readSlot_run chain state 0
  rw [run]
  show State.answer chain state 0 = .ok slot
  unfold State.answer
  rw [known]
  rfl

end Crowded

/-- A number of two bytes is negative in all places. -/
theorem valueTypes_readAlike_crowded :
    ((State.decode Crowded.chain ⟨Crowded.var, .storage 0 3⟩).run.run Crowded.state).1 =
        .ok (.int (-123)) ∧
      ((State.decode Crowded.chain ⟨Crowded.var, .stack 0⟩).run.run Crowded.state).1 =
        .ok (.int (-123)) ∧
      Decode.ofMemoryWord Crowded.var.type (Decode.ofMemory [] Crowded.var.type)
        (Decode.memoryWord Crowded.state.snapshot.memory 32) = .ok (.int (-123)) := by
  have found : Elementary.ofName? "int16" = some (.int 2) := by decide
  obtain ⟨⟨value, denotes, alike⟩, -⟩ := valueTypes_readAlike Crowded.var.type Crowded.bytes
    ⟨.int 2, found, trivial⟩ (by decide)
  obtain rfl : value = .int (-123) := by
    obtain ⟨type, again, denotes⟩ := denotes
    cases found.symm.trans again
    cases value with
    | int number =>
        obtain ⟨low, high, same⟩ := denotes
        have total : ofBigEndian Crowded.bytes = 0xFF85 := by decide
        congr 1
        omega
    | _ => exact denotes.elim
  have low : ¬ Crowded.var.type.StandsHigh := by
    rintro ⟨width, high | high⟩
    · cases found.symm.trans high
    · cases found.symm.trans high
  refine ⟨?_, ?_, ?_⟩
  · exact alike.storage Crowded.chain Crowded.state Crowded.var 0 Crowded.slot
      (Crowded.slot.bytes.take 27) [0xC1, 0xC2, 0xC3] rfl Crowded.slot_read (by decide +kernel)
  · exact alike.stack Crowded.chain Crowded.state Crowded.var 0 Crowded.word rfl nofun rfl
      ⟨Crowded.word.bytes.take 30, .inr ⟨low, by decide +kernel⟩⟩
  · exact alike.memory _ 32 _ ⟨List.replicate 30 0x7A, .inr ⟨low, by decide +kernel⟩⟩

end SolTrace
