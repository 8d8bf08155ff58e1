import Mathlib.Data.List.Basic
import SolTrace.Proofs.Storage.Packing
import SolTrace.Proofs.Storage.Reading
import SolTrace.Proofs.Text.Utf8
/-!
Decoding gives back the encoded value: whatever else storage holds, a value of any type is read
from its cells.
-/
set_option autoImplicit false

namespace SolTrace

open Encoding
open Decoder (Reads)

/-! ### Single cells -/

/-- A cell that takes a whole slot decides its word. -/
theorem Cell.In.word {slot : Word} {number : Nat} {view : Word → Word}
    (inside : (⟨slot, 0, 32, number⟩ : Cell).In view) : (view slot).toNat = number := by
  have bound : (view slot).toNat < 256 ^ 32 := (view slot).isLt
  have equal : (view slot).toNat / 256 ^ 0 % 256 ^ 32 = number := inside
  rwa [Nat.pow_zero, Nat.div_one, Nat.mod_eq_of_lt bound] at equal

/-- The bytes of a slot that a cell has filled. -/
theorem Cell.In.bytes {slot : Word} {data : List UInt8} {view : Word → Word}
    (inside : (⟨slot, 0, 32, ofBigEndian data⟩ : Cell).In view) (full : data.length = 32) :
    (view slot).bytes = data := by
  rw [Word.bytes, inside.word, ← full, bigEndian_ofBigEndian]

namespace Decode

/-- An elementary value type is decoded from the bytes of its number. -/
theorem ofElementary_number (type : Ty) (elementary : Elementary) (value : Value)
    (has : elementary.Has value) (fits : elementary.width ≤ 32) (notBytes : elementary ≠ .bytes)
    (notString : elementary ≠ .string) :
    ofElementary type (bigEndian elementary.width (number value elementary.width)) elementary =
      .ok value := by
  cases elementary <;> cases value <;> try exact has.elim
  case bool.bool value => cases value <;> rfl
  case uint.uint width value =>
    have small : value.toNat < 256 ^ width := has
    simp only [ofElementary, Word.ofBytes, Elementary.width, number, ofBigEndian_bigEndian,
      Nat.mod_eq_of_lt small, BitVec.ofNat_toNat, BitVec.setWidth_eq]
  case int.int width value =>
    simp only [ofElementary, Elementary.width, number,
      signed_bigEndian width value fits has.1 has.2]
  case address.address value =>
    have small : value.toNat < 256 ^ 20 := value.isLt
    simp only [ofElementary, Address.ofBytes, Elementary.width, number, ofBigEndian_bigEndian,
      Nat.mod_eq_of_lt small, BitVec.ofNat_toNat, BitVec.setWidth_eq]
  case fixedBytes.fixedBytes width data =>
    have length : data.length = width := has
    simp only [ofElementary, Elementary.width, number, ← length, bigEndian_ofBigEndian]
  case bytes.bytes => exact absurd rfl notBytes
  case string.string => exact absurd rfl notString

/-- A member of an enumeration is decoded from its index. -/
theorem ofBytes_member (name : String) (values : List String) (member : String) (width : Nat)
    (has : member ∈ values) (fits : values.idxOf member < 256 ^ width) :
    ofBytes (.enum name values) (bigEndian width (values.idxOf member)) = .ok (.enum member) := by
  have found : values[values.idxOf member]? = some member := by
    rw [List.getElem?_eq_getElem (List.idxOf_lt_length_iff.mpr has), List.getElem_idxOf]
  simp only [ofBytes, ofBigEndian_bigEndian, Nat.mod_eq_of_lt fits, found, Option.elim_some]

variable {provider : Provider} {view : Word → Word}

/-- A value type is read from its cell, wherever that is in its slot. -/
theorem ofSlot_reads (type : Ty) (value : Value) (slot : Word) (offset number : Nat)
    (notBytes : type.elementary? ≠ some .bytes) (notString : type.elementary? ≠ some .string)
    (fits : offset + type.bytes ≤ 32) (inside : (⟨slot, offset, type.bytes, number⟩ : Cell).In view)
    (decodes : ofBytes type (bigEndian type.bytes number) = .ok value) :
    Reads provider view (ofSlot provider type slot offset) value := by
  have read : Reads provider view
      (State.readSlot provider slot >>= fun word =>
        Decoder.lift (ofBytes type (packedBytes word offset type.bytes))) value := by
    apply (Reads.readSlot slot).bind
    apply Reads.lift
    have packed : (view slot).toNat / 256 ^ offset % 256 ^ type.bytes = number := inside
    rw [packedBytes_eq _ _ _ fits, packed, decodes]
  unfold ofSlot
  split
  · next bytes => exact absurd bytes notBytes
  · next string => exact absurd string notString
  · rw [if_neg (by omega)]
    exact read

/-! ### Byte strings -/

/-- The last byte of a short byte string is the double of its length. -/
theorem shortBytes_last (data : List UInt8) (short : data.length ≤ 31) :
    ofBigEndian (shortBytes data) % 256 = 2 * data.length := by
  have byte : (UInt8.ofNat (2 * data.length)).toNat = 2 * data.length % 256 :=
    UInt8.toNat_ofNat'
  rw [shortBytes, ofBigEndian_concat, byte]
  omega

theorem shortBytes_take (data : List UInt8) : (shortBytes data).take data.length = data := by
  rw [shortBytes, List.append_assoc, List.take_left]

/-- The slots of a long byte string hold its bytes, and then zeros. -/
theorem chunks_take (data : List UInt8) (count : Nat) (enough : data.length ≤ 32 * count) :
    ((List.range count).flatMap (chunk data)).take data.length = data := by
  induction count generalizing data with
  | zero =>
      obtain rfl : data = [] := List.eq_nil_of_length_eq_zero (by omega)
      rfl
  | succ count ih =>
      have later (i : Nat) : chunk data (i + 1) = chunk (data.drop 32) i := by
        rw [chunk, chunk, List.drop_drop, show 32 + 32 * i = 32 * (i + 1) by omega]
      have rest := ih (data.drop 32) (by rw [List.length_drop]; omega)
      rw [List.range_succ_eq_map, List.flatMap_cons, List.flatMap_map]
      simp only [Nat.succ_eq_add_one, later]
      rw [List.take_append, chunk_length, ← List.length_drop, rest]
      by_cases last : data.length ≤ 32
      · rw [List.drop_eq_nil_of_le last, List.append_nil, chunk, Nat.mul_zero, List.drop_zero,
          List.take_of_length_le last, List.take_left]
      · rw [List.take_of_length_le (by rw [chunk_length]; omega), chunk, Nat.mul_zero,
          List.drop_zero, List.length_take, Nat.min_eq_left (by omega), Nat.sub_self,
          List.replicate_zero, List.append_nil, List.take_append_drop]

theorem length_ok (length : Nat) (small : length ≤ maxLength) :
    Decode.length (BitVec.ofNat 256 length) = .ok length := by
  have bound : length < 2 ^ 256 := by
    have largest : maxLength < 2 ^ 256 := by decide
    omega
  have pointed : length ≤ Text.maxNat64 := by
    have largest : maxLength ≤ Text.maxNat64 := by decide
    omega
  have number : (BitVec.ofNat 256 length).toNat = length := by
    rw [BitVec.toNat_ofNat, Nat.mod_eq_of_lt bound]
  simp only [Decode.length, pointer, number, if_pos pointed, ok_bind, if_pos small]
  rfl

/-- The hash that the data of slot 5 is found by. -/
theorem keccak256_five : keccak256 (5 : Word).bytes =
    0x036b6384b5eca791c62761152d0c79bb0604c104a5fb6f4eb0703f3154bb3db0 := by
  decide +kernel

theorem shortBytes_reads (data : List UInt8) (slot : Word) (short : data.length ≤ 31)
    (inside : (⟨slot, 0, 32, ofBigEndian (shortBytes data)⟩ : Cell).In view) :
    Reads provider view (storageBytes provider slot) data := by
  have last := shortBytes_last data short
  have even : (view slot).toNat % 2 = 0 := by
    rw [inside.word]
    omega
  have length : (view slot).toNat % 256 / 2 = data.length := by
    rw [inside.word]
    omega
  apply (Reads.readSlot slot).bind
  rw [if_pos even]
  simp only [length, if_neg (Nat.not_lt_of_le short)]
  rw [inside.bytes (shortBytes_length data short), shortBytes_take]
  exact Reads.pure data

/-- The words of the data of a long byte string hold its chunks. -/
theorem chunks_bytes (data : List UInt8) (first : Word)
    (inside : ∀ i < chunks data,
      (⟨first + BitVec.ofNat 256 i, 0, 32, ofBigEndian (chunk data i)⟩ : Cell).In view) :
    ((List.range (chunks data)).map fun i => view (first + BitVec.ofNat 256 i)).flatMap Word.bytes =
      (List.range (chunks data)).flatMap (chunk data) := by
  rw [List.flatMap_map]
  apply List.flatMap_congr
  intro i within
  exact (inside i (List.mem_range.mp within)).bytes (chunk_length data i)

theorem longBytes_reads (data : List UInt8) (slot : Word) (small : data.length ≤ maxLength)
    (counted : (⟨slot, 0, 32, 2 * data.length + 1⟩ : Cell).In view)
    (inside : ∀ i < chunks data, (⟨dataSlot slot + BitVec.ofNat 256 i, 0, 32,
      ofBigEndian (chunk data i)⟩ : Cell).In view) :
    Reads provider view (storageBytes provider slot) data := by
  have odd : ¬ (view slot).toNat % 2 = 0 := by
    rw [counted.word]
    omega
  have words : Reads provider view (readSlots provider (dataSlot slot) (chunks data))
      ((List.range (chunks data)).map fun i => view (dataSlot slot + BitVec.ofNat 256 i)) :=
    Reads.mapM _ _ _ fun i _ => Reads.readSlot _
  apply (Reads.readSlot slot).bind
  rw [if_neg odd, counted.word, show (2 * data.length + 1) / 2 = data.length by omega]
  apply (Reads.lift _ _ (length_ok data.length small)).bind
  apply words.bind
  rw [chunks_bytes data (dataSlot slot) inside, chunks_take data (chunks data)
    (by rw [chunks]; omega)]
  exact Reads.pure data

/-- A byte string is read from its cells. -/
theorem storageBytes_reads (data : List UInt8) (slot : Word) (small : data.length ≤ maxLength)
    (inside : ∀ cell ∈ Encoding.ofBytes data slot, cell.In view) :
    Reads provider view (storageBytes provider slot) data := by
  unfold Encoding.ofBytes at inside
  by_cases short : data.length ≤ 31
  · rw [if_pos short] at inside
    exact shortBytes_reads data slot short (inside _ List.mem_cons_self)
  · rw [if_neg short] at inside
    apply longBytes_reads data slot small (inside _ List.mem_cons_self)
    intro i within
    apply inside
    exact List.mem_cons_of_mem _ (List.mem_map_of_mem (List.mem_range.mpr within))

/-! ### Values of any type -/

/-- The values of elements are read one after the other from their cells. -/
theorem elementsFrom_reads (base : Ty) (first : Word) (element : Word → Nat → Decoder Value)
    (cellsOf : Value → Word → Nat → List Cell) (items read : List Value) (i : Nat)
    (each : ∀ item ∈ items, ∀ slot offset, offset + base.bytes ≤ 32 →
      (∀ cell ∈ cellsOf item slot offset, cell.In view) →
      Reads provider view (element slot offset) item)
    (inside : ∀ cell ∈ ofElements base cellsOf first i items, cell.In view) :
    Reads provider view
      (elementsFrom base first element items.length (Cursor.afterElements base i) read)
      (read.reverse ++ items) := by
  induction items generalizing i read with
  | nil =>
      rw [List.append_nil]
      exact Reads.pure read.reverse
  | cons item items ih =>
      have place := Cursor.place_afterElements base i
      have room := (Cursor.place_offset (Cursor.afterElements base i) base).1
      rw [place] at room
      have value := each item List.mem_cons_self
        (first + BitVec.ofNat 256 (base.elementPlace i).slot) (base.elementPlace i).offset room
        fun cell within => inside cell (List.mem_append_left _ within)
      have rest := ih (item :: read) (i + 1)
        (fun other member => each other (List.mem_cons_of_mem item member))
        (fun cell within => inside cell (List.mem_append_right _ within))
      rw [List.reverse_cons, List.append_assoc, List.singleton_append] at rest
      simp only [List.length_cons, elementsFrom, place]
      exact value.bind rest

/-- What is known of the values of a type: each is read from its cells, at any place. -/
def ReadsAll (provider : Provider) (view : Word → Word) (type : Ty) : Prop :=
  ∀ value slot offset, type.Has value → offset + type.bytes ≤ 32 →
    (∀ cell ∈ cells type value slot offset, cell.In view) →
    Reads provider view (ofStorage provider type slot offset) value

/-- The members of a struct are read one after the other from their cells. -/
theorem membersOfStorage_reads (slot : Word) (members : List Variable)
    (fields : List (String × Value)) (cursor : Cursor)
    (each : ∀ member ∈ members, ReadsAll provider view member.type)
    (has : Ty.MembersHave members fields)
    (inside : ∀ cell ∈ memberCells members fields slot cursor, cell.In view) :
    Reads provider view (membersOfStorage provider slot members cursor) fields := by
  induction members generalizing fields cursor with
  | nil =>
      cases fields with
      | nil => exact Reads.pure []
      | cons field fields => exact has.elim
  | cons member members ih =>
      obtain ⟨id, name, location, type, scope, state, mutability, literal⟩ := member
      cases fields with
      | nil => exact has.elim
      | cons field fields =>
          obtain ⟨rfl, rfl, hasValue, hasRest⟩ := has
          have room := (Cursor.place_offset cursor type).1
          have value := each _ List.mem_cons_self field.2
            (slot + BitVec.ofNat 256 (cursor.place type).1.slot) (cursor.place type).1.offset
            hasValue room fun cell within => inside cell (List.mem_append_left _ within)
          have rest := ih fields (cursor.place type).2
            (fun other within => each other (List.mem_cons_of_mem _ within)) hasRest
            (fun cell within => inside cell (List.mem_append_right _ within))
          exact value.bind (rest.bind (Reads.pure _))

/-- An elementary value is read from its cells. -/
theorem elementary_readsAll (name : String) : ReadsAll provider view (.elementary name) := by
  intro value slot offset has fits inside
  obtain ⟨type, found, has⟩ := has
  have elementary : (Ty.elementary name).elementary? = some type := found
  simp only [cells, found] at inside
  by_cases bytes : type = .bytes
  · subst bytes
    cases value <;> try exact has.elim
    case bytes data =>
      simp only [ofStorage, ofSlot, elementary]
      exact (storageBytes_reads data slot has inside).bind (Reads.pure _)
  · by_cases string : type = .string
    · subst string
      cases value <;> try exact has.elim
      case string text =>
        simp only [ofStorage, ofSlot, elementary]
        have read : Reads provider view (storageBytes provider slot) (Text.utf8 text) :=
          storageBytes_reads (Text.utf8 text) slot has inside
        apply read.bind
        rw [Text.ofUtf8Lossy_utf8]
        exact Reads.pure _
    · have width := Ty.bytes_elementary name type found
      simp only [ofStorage]
      apply ofSlot_reads (.elementary name) value slot offset (number value type.width)
      · rw [elementary]
        exact fun same => bytes (Option.some.inj same)
      · rw [elementary]
        exact fun same => string (Option.some.inj same)
      · exact fits
      · rw [width]
        apply inside
        cases type <;> simp [Encoding.ofElementary] at bytes string ⊢
      · rw [width]
        simp only [Decode.ofBytes, elementary]
        have fits := (Elementary.fits_of_ofName? name type found).2
        exact ofElementary_number _ type value has fits bytes string

/-- A member of an enumeration is read from its cell. -/
theorem enum_readsAll (name : String) (values : List String) :
    ReadsAll provider view (.enum name values) := by
  intro value slot offset has fits inside
  cases value <;> try exact has.elim
  case enum member =>
    have held := inside _ List.mem_cons_self
    change (⟨slot, offset, (Ty.enum name values).bytes, _⟩ : Cell).In view at held
    have small : values.idxOf member < 256 ^ (Ty.enum name values).bytes := by
      rw [← show _ = values.idxOf member from held]
      exact Nat.mod_lt _ (Nat.pow_pos (by decide))
    simp only [ofStorage]
    apply ofSlot_reads (.enum name values) (.enum member) slot offset (values.idxOf member)
      (by simp [Ty.elementary?]) (by simp [Ty.elementary?]) fits held
    exact ofBytes_member name values member _ has small

/-- An array is read from the cells of its elements, wherever these start. -/
theorem array_reads (base : Ty) (fixed : Option Nat) (slot first : Word) (items : List Value)
    (each : ReadsAll provider view base) (has : ∀ item ∈ items, base.Has item)
    (counted : Reads provider view (storageElements provider slot fixed) (items.length, first))
    (inside : ∀ cell ∈ ofElements base (cells base) first 0 items, cell.In view) (offset : Nat) :
    Reads provider view (ofStorage provider (.array base fixed) slot offset) (.array items) := by
  have elements := elementsFrom_reads base first (ofStorage provider base) (cells base) items [] 0
    (fun item within slot offset => each item slot offset (has item within)) inside
  simp only [ofStorage]
  apply counted.bind
  exact elements.bind (Reads.pure _)

/-- The length of a dynamic array is read from its slot. -/
theorem storageElements_reads (slot : Word) (count : Nat) (small : count ≤ maxLength)
    (held : (⟨slot, 0, 32, count⟩ : Cell).In view) :
    Reads provider view (storageElements provider slot none) (count, dataSlot slot) := by
  have word : BitVec.ofNat 256 count = view slot := by
    rw [← held.word, BitVec.ofNat_toNat, BitVec.setWidth_eq]
  apply (Reads.readSlot slot).bind
  rw [← word]
  exact (Reads.lift _ _ (length_ok count small)).bind (Reads.pure _)

/-- The values of every type are read from their cells. -/
theorem readsAll (type : Ty) : ReadsAll provider view type := by
  induction type using Ty.induction with
  | elementary name => exact elementary_readsAll name
  | mapping key value => exact fun _ _ _ has => has.elim
  | enum name values => exact enum_readsAll name values
  | struct name members each =>
      intro value slot offset has fits inside
      cases value <;> try exact has.elim
      case struct fields =>
        have read := membersOfStorage_reads slot members fields .start each has inside
        simp only [ofStorage]
        exact read.bind (Reads.pure _)
  | array base length each =>
      intro value slot offset has fits inside
      cases value <;> cases length <;> try exact has.elim
      case array.some items length =>
        obtain ⟨rfl, has⟩ := has
        exact array_reads base _ slot slot items each has (Reads.pure _) inside offset
      case array.none items =>
        have counted : Reads provider view (storageElements provider slot none)
            (items.length, dataSlot slot) :=
          storageElements_reads slot items.length has.1 (inside _ List.mem_cons_self)
        apply array_reads base none slot (dataSlot slot) items each has.2 counted
        exact fun cell within => inside cell (List.mem_cons_of_mem _ within)

end Decode

end SolTrace
