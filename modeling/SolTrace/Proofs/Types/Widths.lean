import Mathlib.Order.Bounds.Basic
import SolTrace.Proofs.State.ValueTypes
import SolTrace.Proofs.Storage.Placement
/-!
Widths. Every type has a width between one byte and a slot, so that slots can be shared and words
be cut by it, and an enumeration has the least width that tells its members apart.
-/
set_option autoImplicit false

namespace SolTrace

namespace Ty

/-! ### Enumerations -/

/-- A count of 64 bits is not told apart from a power by a shift that stops at 127 bits. -/
theorem shift_lt_iff {count : Nat} (small : count < 2 ^ 64) (width : Nat) :
    1 <<< min (8 * width) 127 < count ↔ 256 ^ width < count := by
  constructor
  · intro below
    have short : min (8 * width) 127 < 64 := by
      rw [Nat.one_shiftLeft] at below
      exact (Nat.pow_lt_pow_iff_right (by decide)).mp (Nat.lt_trans below small)
    have whole : min (8 * width) 127 = 8 * width := by omega
    rwa [whole, Nat.one_shiftLeft, Nat.pow_mul] at below
  · exact Nat.lt_of_le_of_lt (shift_le_pow width)

/-- Each width that the search goes past is too small. -/
theorem pow_lt_of_lt_enumWidthFrom {count : Nat} (small : count < 2 ^ 64) (steps first : Nat)
    {width : Nat} (notBefore : first ≤ width) (passed : width < enumWidthFrom count steps first) :
    256 ^ width < count := by
  induction steps generalizing first with
  | zero => exact absurd passed (Nat.not_lt.mpr notBefore)
  | succ steps ih =>
      rw [enumWidthFrom] at passed
      split at passed
      · next tooSmall =>
          rcases Nat.eq_or_lt_of_le notBefore with rfl | later
          · exact (shift_lt_iff small _).mp tooSmall
          · exact ih (first + 1) later passed
      · exact absurd passed (Nat.not_lt.mpr notBefore)

theorem count_le_enumWidth {count : Nat} (small : count < 2 ^ 64) :
    count ≤ 256 ^ enumWidth count := by
  apply enumWidthFrom_count
  have room : 2 ^ 64 ≤ 256 ^ (1 + 31) := by decide
  omega

/-- The width of an enumeration is the least one that tells its members apart. -/
theorem enumWidth_isLeast {count : Nat} (small : count < 2 ^ 64) :
    IsLeast {width | 1 ≤ width ∧ count ≤ 256 ^ width} (enumWidth count) := by
  refine ⟨⟨(enumWidth_bounds count).1, count_le_enumWidth small⟩, ?_⟩
  rintro width ⟨positive, enough⟩
  by_contra shorter
  have passed := pow_lt_of_lt_enumWidthFrom small 31 1 positive (Nat.lt_of_not_le shorter)
  omega

/-! ### Slots and words -/

/-- Whether the width of a type can be used wherever slots are shared and words are cut by it. -/
structure Usable (type : Ty) : Prop where
  bounds : 1 ≤ type.bytes ∧ type.bytes ≤ 32
  /-- As many values share a slot as it has room for, one at least. -/
  shared : 1 ≤ 32 / max 1 type.bytes ∧ 32 / max 1 type.bytes * type.bytes ≤ 32
  /-- Wherever the cursor is, a value is put down inside its slot, and the next one starts at a
  place that a slot has. -/
  placed : ∀ cursor : Cursor,
    (cursor.place type).1.offset + type.bytes ≤ 32 ∧ (cursor.place type).2.offset ≤ 32
  /-- A value in a word of the stack or of memory is a part of the word with the width of the
  type. -/
  word : ∀ word : Word, ∃ start part,
    Decode.Slice word.bytes start (start + type.bytes) part ∧
      Decode.ofWord type word = Decode.ofBytes type part
  /-- A value in a slot is the part of the slot that its offset and its width give. What would
  leave the slot is refused before the slot is read. -/
  slot : ∀ (provider : Provider) (slot : Word) (offset : Nat),
    type.elementary? ≠ some .bytes → type.elementary? ≠ some .string →
    Decode.ofSlot provider type slot offset =
        (if 32 < offset + type.bytes then throw (.decode (.overflowsSlot type.text offset))
        else State.readSlot provider slot >>= fun word =>
          Decoder.lift (Decode.ofBytes type (Decode.packedBytes word offset type.bytes))) ∧
      (offset + type.bytes ≤ 32 → ∀ word : Word,
        Decode.Slice word.bytes (32 - offset - type.bytes) (32 - offset)
          (Decode.packedBytes word offset type.bytes))
  /-- An address has the bytes that are taken for it. -/
  address : type.elementary? = some .address → type.bytes = 20

theorem ofWord_slice (type : Ty) (word : Word) : ∃ start part,
    Decode.Slice word.bytes start (start + type.bytes) part ∧
      Decode.ofWord type word = Decode.ofBytes type part := by
  have fits := type.bytes_bounds.2
  rw [Decode.ofWord]
  split
  · refine ⟨0, _, ?_, rfl⟩
    rw [Nat.zero_add]
    exact Decode.take_slice word fits
  · refine ⟨32 - type.bytes, _, ?_, rfl⟩
    rw [Nat.sub_add_cancel fits]
    exact Decode.drop_slice word type.bytes

theorem usable (type : Ty) : type.Usable where
  bounds := type.bytes_bounds
  shared := by
    obtain ⟨positive, fits⟩ := type.bytes_bounds
    rw [Nat.max_eq_right positive]
    exact ⟨Nat.div_pos fits positive, Nat.div_mul_le_self 32 type.bytes⟩
  placed cursor := ⟨(cursor.place_offset type).1, cursor.place_next_offset type⟩
  word := type.ofWord_slice
  slot provider slot offset notBytes notString :=
    ⟨Decode.ofSlot_packed notBytes notString provider slot offset,
      fun inside word => Decode.packedBytes_slice word inside⟩
  address isAddress := by
    cases type with
    | elementary name => exact bytes_elementary name .address isAddress
    | _ => cases isAddress

end Ty

/-- The width of every type can be used, also that of every name which is accepted, and an
enumeration has the least width, at least one, that its number of members needs: all indexes of
members fit into it, and no smaller width has room for the last of them. -/
theorem widths_usable :
    (∀ type : Ty, type.Usable) ∧
      (∀ name kind, Elementary.ofName? name = some kind →
        kind.Fits ∧ (Ty.elementary name).bytes = kind.width) ∧
      (∀ name values, (Ty.enum name values).bytes = Ty.enumWidth values.length) ∧
      ∀ count < 2 ^ 64,
        IsLeast {width | 1 ≤ width ∧ count ≤ 256 ^ width} (Ty.enumWidth count) ∧
          (∀ index < count, index < 256 ^ Ty.enumWidth count) ∧
          ∀ width, 1 ≤ width → width < Ty.enumWidth count →
            ∃ index < count, 256 ^ width ≤ index := by
  refine ⟨Ty.usable, ?_, fun _ _ => rfl, ?_⟩
  · intro name kind accepted
    exact ⟨Elementary.fits_of_ofName? name kind accepted, Ty.bytes_elementary name kind accepted⟩
  · intro count small
    refine ⟨Ty.enumWidth_isLeast small, ?_, ?_⟩
    · intro index member
      exact Nat.lt_of_lt_of_le member (Ty.count_le_enumWidth small)
    · intro width positive shorter
      have passed := Ty.pow_lt_of_lt_enumWidthFrom small 31 1 positive shorter
      exact ⟨256 ^ width, passed, Nat.le_refl _⟩

/-- A fixed-point name of 128 bits, and an enumeration with one member more than a byte has
numbers. -/
theorem widths_usable_crowded :
    (Ty.elementary "ufixed128x18").bytes = 16 ∧
      Elementary.ofName? "ufixed128x18" = some (.fixed 16) ∧ (Elementary.fixed 16).Fits ∧
      257 < 2 ^ 64 ∧ Ty.enumWidth 257 = 2 ∧ 256 < 256 ^ Ty.enumWidth 257 ∧
      ∃ index < 257, 256 ^ 1 ≤ index := by
  have accepted : Elementary.ofName? "ufixed128x18" = some (.fixed 16) := by decide
  have two : Ty.enumWidth 257 = 2 := by decide
  obtain ⟨-, names, -, enumerations⟩ := widths_usable
  obtain ⟨fits, bytes⟩ := names "ufixed128x18" (.fixed 16) accepted
  obtain ⟨-, indexes, shorter⟩ := enumerations 257 (by decide)
  exact ⟨bytes, accepted, fits, by decide, two, indexes 256 (by decide),
    shorter 1 (Nat.le_refl 1) (by rw [two]; decide)⟩

end SolTrace
