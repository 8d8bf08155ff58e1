import SolTrace.Proofs.Storage.Encoding
/-!
The packing of values into slots: a value stays inside a slot or starts a new one, values that are
put down one after the other do not overlap, and the elements of an array are at their places.
-/
set_option autoImplicit false

namespace SolTrace

/-! ### Widths -/

namespace Elementary

/-- A width that a slot has room for. -/
def Fits (type : Elementary) : Prop :=
  1 ≤ type.width ∧ type.width ≤ 32

theorem bitWidth?_bounds (digits : List Char) (width : Nat)
    (found : bitWidth? digits = some width) : 1 ≤ width ∧ width ≤ 32 := by
  unfold bitWidth? at found
  split at found
  · obtain rfl := Option.some.inj found
    omega
  · obtain ⟨bits, -, found⟩ := Option.bind_eq_some_iff.mp found
    split at found
    · obtain rfl := Option.some.inj found
      omega
    · cases found

theorem byteWidth?_bounds (digits : List Char) (width : Nat)
    (found : byteWidth? digits = some width) : 1 ≤ width ∧ width ≤ 32 := by
  have bounds := (Option.filter_eq_some_iff.mp found).2
  simpa using bounds

theorem fixedWidth?_bounds (name : List Char) (width : Nat)
    (found : fixedWidth? name = some width) : 1 ≤ width ∧ width ≤ 32 := by
  simp only [fixedWidth?] at found
  split at found
  · exact bitWidth?_bounds _ width found
  · split at found
    · obtain rfl := Option.some.inj found
      omega
    · cases found

theorem fits_of_map (make : Nat → Elementary) (read : Option Nat) (type : Elementary)
    (width : ∀ n, (make n).width = n) (bounds : ∀ n, read = some n → 1 ≤ n ∧ n ≤ 32)
    (found : read.map make = some type) : type.Fits := by
  obtain ⟨n, number, rfl⟩ := Option.map_eq_some_iff.mp found
  have inside := bounds n number
  rw [← width n] at inside
  exact inside

theorem fits_of_ofWidth? (name : List Char) (type : Elementary)
    (found : ofWidth? name = some type) : type.Fits := by
  unfold ofWidth? at found
  split at found
  · obtain rfl := Option.some.inj found
    exact ⟨by decide, by decide⟩
  · split at found
    · exact fits_of_map uint _ type (fun _ => rfl) (bitWidth?_bounds _) found
    · split at found
      · exact fits_of_map int _ type (fun _ => rfl) (bitWidth?_bounds _) found
      · split at found
        · exact fits_of_map fixed _ type (fun _ => rfl) (fixedWidth?_bounds _) found
        · split at found
          · exact fits_of_map fixedBytes _ type (fun _ => rfl) (byteWidth?_bounds _) found
          · cases found

theorem fits_of_ofName? (name : String) (type : Elementary)
    (found : ofName? name = some type) : type.Fits := by
  unfold ofName? at found
  split at found
  case h_7 => exact fits_of_ofWidth? _ type found
  all_goals
    obtain rfl := Option.some.inj found
    exact ⟨by decide, by decide⟩

end Elementary

namespace Ty

theorem shift_le_pow (width : Nat) : 1 <<< min (8 * width) 127 ≤ 256 ^ width := by
  have power : (256 : Nat) ^ width = 2 ^ (8 * width) := by rw [Nat.pow_mul]
  rw [Nat.one_shiftLeft, power]
  exact Nat.pow_le_pow_right (by decide) (Nat.min_le_left _ _)

theorem enumWidthFrom_bounds (count steps width : Nat) :
    width ≤ enumWidthFrom count steps width ∧ enumWidthFrom count steps width ≤ width + steps := by
  induction steps generalizing width with
  | zero => exact ⟨Nat.le_refl _, Nat.le_refl _⟩
  | succ steps ih =>
      have next := ih (width + 1)
      rw [enumWidthFrom]
      split <;> omega

theorem enumWidth_bounds (count : Nat) : 1 ≤ enumWidth count ∧ enumWidth count ≤ 32 :=
  enumWidthFrom_bounds count 31 1

theorem bytes_elementary (name : String) (type : Elementary)
    (found : Elementary.ofName? name = some type) : (Ty.elementary name).bytes = type.width := by
  simp only [bytes, found, Option.map_some, Option.getD_some]

theorem bytes_bounds (type : Ty) : 1 ≤ type.bytes ∧ type.bytes ≤ 32 := by
  cases type with
  | elementary name =>
      cases found : Elementary.ofName? name with
      | none => simp [bytes, found]
      | some type =>
          rw [bytes_elementary name type found]
          exact Elementary.fits_of_ofName? name type found
  | enum name values => exact enumWidth_bounds values.length
  | array base length => simp [bytes]
  | mapping key value => simp [bytes]
  | struct name members => simp [bytes]

/-- Only reference types take more than one slot. -/
theorem slots_of_value (type : Ty) (value : type.isReference = false) : type.slots = 1 := by
  cases type with
  | elementary name => rfl
  | enum name values => rfl
  | array base length => cases value
  | mapping key value => rfl
  | struct name members => cases value

/-- The bytes that a value takes at its place. -/
def extent (type : Ty) : Nat :=
  if type.isReference then 32 * type.slots else type.bytes

end Ty

/-! ### Cursors -/

namespace Cursor

/-- The bytes before a cursor. -/
def position (cursor : Cursor) : Nat :=
  32 * cursor.slot + cursor.offset

/-- A value that is put down stays inside its slot, and one of a reference type starts it. -/
theorem place_offset (cursor : Cursor) (type : Ty) :
    (cursor.place type).1.offset + type.bytes ≤ 32 ∧
      (type.isReference → (cursor.place type).1.offset = 0) := by
  have bounds := type.bytes_bounds
  simp only [place, align]
  split
  · exact ⟨show 0 + type.bytes ≤ 32 by omega, fun _ => rfl⟩
  · next inside =>
      refine ⟨by omega, fun reference => ?_⟩
      have notBehind : ¬ 0 < cursor.offset := fun behind => inside (.inr ⟨reference, behind⟩)
      omega

/-- Values are put down behind the cursor, and the next ones behind them. -/
theorem place_position (cursor : Cursor) (type : Ty) (inside : cursor.offset ≤ 32) :
    cursor.position ≤ (cursor.place type).1.position ∧
      (cursor.place type).1.position + type.extent ≤ (cursor.place type).2.position := by
  have offset := place_offset cursor type
  constructor
  · simp only [place, align, position]
    split
    · show 32 * cursor.slot + cursor.offset ≤ 32 * (cursor.slot + 1) + 0
      omega
    · exact Nat.le_refl _
  · simp only [place] at offset ⊢
    cases reference : type.isReference with
    | true =>
        have first := offset.2 reference
        simp only [reference] at first ⊢
        simp only [position, advance, Ty.extent, reference, or_true, if_true, first]
        omega
    | false =>
        have one := type.slots_of_value reference
        simp [position, advance, Ty.extent, reference, one]
        omega

theorem place_next_offset (cursor : Cursor) (type : Ty) : (cursor.place type).2.offset ≤ 32 := by
  have offset := (place_offset cursor type).1
  simp only [place, advance] at offset ⊢
  split
  · exact Nat.zero_le 32
  · exact offset

/-- The cursor after a number of elements. -/
def afterElements (base : Ty) : Nat → Cursor
  | 0 => .start
  | i + 1 => ((afterElements base i).place base).2

/-- A packed element goes behind the one before it as long as both fit into the slot. -/
theorem align_packed (width i : Nat) (positive : 1 ≤ width) (small : width ≤ 32) :
    align ⟨i / (32 / width), i % (32 / width) * width + width⟩ width false =
      ⟨(i + 1) / (32 / width), (i + 1) % (32 / width) * width⟩ := by
  have room : 0 < 32 / width := Nat.div_pos small positive
  have count := Nat.mod_add_div i (32 / width)
  have last := Nat.mod_lt i room
  have full : 32 < i % (32 / width) * width + width + width ↔
      32 / width ≤ i % (32 / width) + 1 := by
    have fits : i % (32 / width) + 2 ≤ 32 / width ↔ (i % (32 / width) + 2) * width ≤ 32 :=
      Nat.le_div_iff_mul_le positive
    rw [Nat.add_mul] at fits
    omega
  simp only [align, full, Bool.false_eq_true, false_and, or_false]
  by_cases filled : 32 / width ≤ i % (32 / width) + 1
  · have next : (i + 1) / (32 / width) = i / (32 / width) + 1 ∧ (i + 1) % (32 / width) = 0 := by
      apply (Nat.div_mod_unique room).mpr
      rw [Nat.mul_add]
      exact ⟨by omega, room⟩
    rw [if_pos filled, next.1, next.2, Nat.zero_mul]
  · have next : (i + 1) / (32 / width) = i / (32 / width) ∧
        (i + 1) % (32 / width) = i % (32 / width) + 1 := by
      apply (Nat.div_mod_unique room).mpr
      exact ⟨by omega, by omega⟩
    rw [if_neg filled, next.1, next.2, Nat.succ_mul]

/-- The elements of an array are put down at their places. -/
theorem place_afterElements (base : Ty) (i : Nat) :
    ((afterElements base i).place base).1 = base.elementPlace i := by
  have bounds := base.bytes_bounds
  cases reference : base.isReference with
  | true =>
      induction i with
      | zero => simp [afterElements, place, align, start, Ty.elementPlace, reference, bounds.2]
      | succ i ih =>
          simp only [place, reference] at ih
          simp only [afterElements, place, reference, ih]
          simp [advance, align, Ty.elementPlace, reference, Nat.succ_mul, bounds.2]
  | false =>
      induction i with
      | zero => simp [afterElements, place, align, start, Ty.elementPlace, reference, bounds.2]
      | succ i ih =>
          have one := base.slots_of_value reference
          simp only [place, reference] at ih
          simp only [afterElements, place, reference, ih]
          simpa [Ty.elementPlace, reference, advance, one] using
            align_packed base.bytes i bounds.1 bounds.2

end Cursor

end SolTrace
