import SolTrace.Proofs.Storage.Encoding
/-!
The image of cells: a cell that is written is in the storage, and stays in it as long as only cells
are written that have no byte in common with it.
-/
set_option autoImplicit false

namespace SolTrace

namespace Cell

/-! ### Splicing numbers -/

theorem splice_inside (n offset width number : Nat) (small : number < 256 ^ width) :
    splice n offset width number / 256 ^ offset % 256 ^ width = number := by
  have positive : 0 < 256 ^ offset := Nat.pow_pos (by decide)
  have low : n % 256 ^ offset < 256 ^ offset := Nat.mod_lt n positive
  rw [splice, Nat.add_mul_div_left _ _ positive, Nat.div_eq_of_lt low, Nat.zero_add,
    Nat.add_mul_mod_self_left, Nat.mod_eq_of_lt small]

/-- The bytes below the replaced ones are kept. -/
theorem splice_below (n offset width number low size : Nat) (below : low + size ≤ offset) :
    splice n offset width number / 256 ^ low % 256 ^ size = n / 256 ^ low % 256 ^ size := by
  have part : splice n offset width number % 256 ^ offset = n % 256 ^ offset := by
    rw [splice, Nat.add_mul_mod_self_left, Nat.mod_mod]
  have divides : 256 ^ (low + size) ∣ 256 ^ offset := Nat.pow_dvd_pow 256 below
  have same : splice n offset width number % 256 ^ (low + size) = n % 256 ^ (low + size) := by
    rw [← Nat.mod_mod_of_dvd _ divides, part, Nat.mod_mod_of_dvd _ divides]
  rw [← Nat.mod_mul_right_div_self, ← Nat.mod_mul_right_div_self, ← Nat.pow_add, same]

/-- The bytes above the replaced ones are kept. -/
theorem splice_above (n offset width number high : Nat) (small : number < 256 ^ width)
    (above : offset + width ≤ high) :
    splice n offset width number / 256 ^ high = n / 256 ^ high := by
  have positive : 0 < 256 ^ offset := Nat.pow_pos (by decide)
  have rest : high = offset + width + (high - (offset + width)) := by omega
  have low : n % 256 ^ offset < 256 ^ offset := Nat.mod_lt n positive
  have kept : splice n offset width number / 256 ^ (offset + width) =
      n / 256 ^ (offset + width) := by
    rw [Nat.pow_add, ← Nat.div_div_eq_div_mul, splice, Nat.add_mul_div_left _ _ positive,
      Nat.div_eq_of_lt low, Nat.zero_add, Nat.add_mul_div_left _ _ (Nat.pow_pos (by decide)),
      Nat.div_eq_of_lt small, Nat.zero_add, Nat.pow_add]
  rw [rest, Nat.pow_add, ← Nat.div_div_eq_div_mul, ← Nat.div_div_eq_div_mul, kept]

/-! ### Writing cells -/

/-- A cell that some bytes of a slot have room for. -/
structure Proper (cell : Cell) : Prop where
  positive : 0 < cell.width
  room : cell.offset + cell.width ≤ 32
  small : cell.number < 256 ^ cell.width

theorem write_toNat (cell : Cell) (view : Word → Word) (proper : cell.Proper) :
    (cell.write view cell.slot).toNat =
      splice (view cell.slot).toNat cell.offset cell.width cell.number := by
  have bound : (view cell.slot).toNat < 256 ^ 32 := (view cell.slot).isLt
  have kept := splice_above (view cell.slot).toNat cell.offset cell.width cell.number 32
    proper.small proper.room
  rw [Nat.div_eq_of_lt bound] at kept
  have small := Nat.lt_of_div_eq_zero (Nat.pow_pos (by decide)) kept
  rw [write, if_pos rfl, BitVec.toNat_ofNat]
  exact Nat.mod_eq_of_lt small

theorem write_in (cell : Cell) (view : Word → Word) (proper : cell.Proper) :
    cell.In (cell.write view) := by
  show _ / _ % _ = _
  rw [write_toNat cell view proper]
  exact splice_inside _ _ _ _ proper.small

theorem Apart.symm {cell other : Cell} (apart : cell.Apart other) : other.Apart cell := by
  rcases apart with slots | below | above
  · exact .inl slots.symm
  · exact .inr (.inr below)
  · exact .inr (.inl above)

/-- Writing a cell keeps the cells that have no byte in common with it. -/
theorem in_write_iff (cell other : Cell) (view : Word → Word) (proper : cell.Proper)
    (apart : cell.Apart other) : other.In (cell.write view) ↔ other.In view := by
  by_cases slots : other.slot = cell.slot
  · have numbers : (cell.write view other.slot).toNat / 256 ^ other.offset % 256 ^ other.width =
        (view other.slot).toNat / 256 ^ other.offset % 256 ^ other.width := by
      rw [slots, write_toNat cell view proper]
      rcases apart with differ | below | above
      · exact absurd slots.symm differ
      · rw [splice_above _ _ _ _ _ proper.small below]
      · exact splice_below _ _ _ _ _ _ above
    rw [In, In, numbers]
  · rw [In, In, write, if_neg slots]

end Cell

namespace Encoding

/-- The image of cells without a common byte has each of them, and zeros in all other bytes. -/
theorem image_encodes (cells : List Cell) (proper : ∀ cell ∈ cells, cell.Proper)
    (apart : cells.Pairwise Cell.Apart) : Encodes (image cells) cells := by
  induction cells with
  | nil =>
      refine ⟨fun cell within => absurd within List.not_mem_nil, fun slot byte _ _ => ?_⟩
      show (0 : Word).toNat / _ % _ = 0
      simp
  | cons cell cells ih =>
      obtain ⟨fromFirst, fromRest⟩ := List.pairwise_cons.mp apart
      have first := proper cell List.mem_cons_self
      have rest := ih (fun other within => proper other (List.mem_cons_of_mem cell within)) fromRest
      refine ⟨fun other within => ?_, fun slot byte inside free => ?_⟩
      · cases within with
        | head => exact cell.write_in (image cells) first
        | tail _ within =>
            apply (cell.in_write_iff other (image cells) first (fromFirst other within)).mpr
            exact rest.held other within
      · apply (cell.in_write_iff _ (image cells) first (free cell List.mem_cons_self)).mpr
        exact rest.blank slot byte inside fun other within =>
          free other (List.mem_cons_of_mem cell within)

end Encoding

end SolTrace
