import SolTrace.Proofs.Storage.Leaves
/-!
Slots counted in 64 bits. A packer is a cursor whose slot starts over past the largest number. As
long as the slots behind the last variable can be told, no count on the way starts over, neither of
the layout nor of a struct or an array in it, and the layout is the one without a bound.
-/
set_option autoImplicit false

namespace SolTrace

theorem Cursor.slot_le_slots (cursor : Cursor) : cursor.slot ≤ cursor.slots := by
  rw [slots]
  split <;> omega

theorem Cursor.slot_le_advance (cursor : Cursor) (width slots : Nat) (reference : Bool) :
    cursor.slot ≤ (cursor.advance width slots reference).slot := by
  rw [advance]
  split
  · exact Nat.le_add_right _ _
  · exact Nat.le_refl _

/-! ### Packers as cursors -/

namespace Packer

/-- A sum that 64 bits can tell does not start over. -/
theorem toNat_add_of_lt (slot slots : UInt64) (fits : slot.toNat + slots.toNat < 2 ^ 64) :
    (slot + slots).toNat = slot.toNat + slots.toNat := by
  rw [UInt64.toNat_add]
  exact Nat.mod_eq_of_lt fits

/-- A packer told by the number of its slot. -/
def cursor (packer : Packer) : Cursor :=
  ⟨packer.slot.toNat, packer.offset⟩

theorem slots_cursor (packer : Packer) (fits : packer.cursor.slots < 2 ^ 64) :
    packer.slots.toNat = packer.cursor.slots := by
  unfold slots cursor Cursor.slots at *
  by_cases filled : 0 < packer.offset
  · simp only [if_pos filled] at fits ⊢
    exact toNat_add_of_lt packer.slot 1 fits
  · simp only [if_neg filled]

theorem align_cursor (packer : Packer) (width : Nat) (reference : Bool)
    (fits : (packer.cursor.align width reference).slot < 2 ^ 64) :
    (packer.align width reference).cursor = packer.cursor.align width reference := by
  unfold align cursor Cursor.align at *
  by_cases full : 32 < packer.offset + width ∨ (reference ∧ 0 < packer.offset)
  · simp only [if_pos full] at fits ⊢
    exact congrArg (Cursor.mk · 0) (toNat_add_of_lt packer.slot 1 fits)
  · simp only [if_neg full]

theorem advance_cursor (packer : Packer) (width : Nat) (slots : UInt64) (reference : Bool)
    (fits : (packer.cursor.advance width slots.toNat reference).slot < 2 ^ 64) :
    (packer.advance width slots reference).cursor =
      packer.cursor.advance width slots.toNat reference := by
  have several : 1 < slots ↔ 1 < slots.toNat := UInt64.lt_iff_toNat_lt
  unfold advance cursor Cursor.advance at *
  by_cases whole : 1 < slots.toNat ∨ reference = true
  · simp only [several, if_pos whole] at fits ⊢
    exact congrArg (Cursor.mk · 0) (toNat_add_of_lt packer.slot slots fits)
  · simp only [several, if_neg whole]

/-- If the slots behind a value can be told, a packer puts it down as a cursor does. The slots
behind it bound those in front of it, so one bound is enough for both sums. -/
theorem next_cursor (packer : Packer) (type : Ty) (slots : UInt64)
    (fits : ((packer.cursor.align type.bytes type.isReference).advance type.bytes slots.toNat
      type.isReference).slots < 2 ^ 64) :
    (packer.align type.bytes type.isReference).cursor =
        packer.cursor.align type.bytes type.isReference ∧
      ((packer.align type.bytes type.isReference).advance type.bytes slots
        type.isReference).cursor =
        (packer.cursor.align type.bytes type.isReference).advance type.bytes slots.toNat
          type.isReference := by
  have behind := Nat.lt_of_le_of_lt (Cursor.slot_le_slots _) fits
  have start : (packer.align type.bytes type.isReference).cursor =
      packer.cursor.align type.bytes type.isReference := by
    apply align_cursor
    exact Nat.lt_of_le_of_lt (Cursor.slot_le_advance _ _ _ _) behind
  rw [← start] at behind ⊢
  exact ⟨rfl, advance_cursor _ _ _ _ behind⟩

end Packer

/-! ### Sizes -/

namespace Ty

/-- Members whose sizes are told right are put down by a packer as by a cursor. -/
theorem endOf64_cursor (members : List Variable) (packer : Packer)
    (same : ∀ member ∈ members, member.mutability = .mutable →
      member.type.slots64.toNat = member.type.wholeSlots)
    (small : (wholeEnd members packer.cursor).slots ≤ maxSlots) :
    (endOf64 members packer).cursor = wholeEnd members packer.cursor := by
  induction members generalizing packer with
  | nil => rfl
  | cons member members ih =>
      have rest (next : Packer) := ih next fun other within =>
        same other (List.mem_cons_of_mem _ within)
      have here := same member List.mem_cons_self
      obtain ⟨id, name, location, type, scope, state, mutability, literal⟩ := member
      rw [wholeEnd] at small ⊢
      rw [endOf64]
      by_cases isMutable : mutability = .mutable
      · have here : type.slots64.toNat = type.wholeSlots := here isMutable
        rw [if_pos isMutable] at small ⊢
        rw [if_pos isMutable]
        have fits := Nat.le_trans (le_wholeEnd members _).1 small
        rw [← here] at small fits ⊢
        have next := (packer.next_cursor type type.slots64 (Nat.lt_succ_of_le fits)).2
        rw [← next] at small ⊢
        exact rest _ small
      · rw [if_neg isMutable] at small ⊢
        rw [if_neg isMutable]
        exact rest packer small

theorem toNat_max (count other : UInt64) :
    (max count other).toNat = max count.toNat other.toNat := by
  rw [show max count other = if count ≤ other then other else count from rfl, Nat.max_def]
  simp only [UInt64.le_iff_toNat_le]
  split <;> rfl

/-- Sizes that can be told are told right in 64 bits. An element of an array is no larger than the
array, unless the array is empty. -/
theorem slots64_eq_wholeSlots (type : Ty) (small : type.wholeSlots ≤ maxSlots) :
    type.slots64.toNat = type.wholeSlots := by
  induction type using Ty.induction with
  | elementary name => rfl
  | mapping key value => rfl
  | enum name values => rfl
  | struct name members each =>
      rw [wholeSlots] at small
      have whole : (wholeEnd members .start).slots ≤ maxSlots := by omega
      have told := endOf64_cursor members .start (fun member within isMutable =>
        each member within (members_told whole member within isMutable)) whole
      have count := (endOf64 members .start).slots_cursor (by
        rw [told]
        exact Nat.lt_succ_of_le whole)
      rw [told] at count
      rw [slots64, wholeSlots, toNat_max]
      exact congrArg (max 1) count
  | array base length each =>
      cases length with
      | none => rfl
      | some length =>
          rw [wholeSlots] at small
          rw [slots64, wholeSlots]
          cases reference : base.isReference with
          | false =>
              simp only [reference, Bool.false_eq_true, if_false] at small ⊢
              exact UInt64.toNat_ofNat_of_lt' (Nat.lt_succ_of_le small)
          | true =>
              simp only [reference, if_true] at small ⊢
              have product : length * base.slots64.toNat = length * base.wholeSlots := by
                cases length with
                | zero => rw [Nat.zero_mul, Nat.zero_mul]
                | succ count =>
                    have element : base.wholeSlots ≤ (count + 1) * base.wholeSlots :=
                      Nat.le_mul_of_pos_left _ (Nat.succ_pos count)
                    rw [each (Nat.le_trans element small)]
              rw [product, Nat.min_eq_left small]
              exact UInt64.toNat_ofNat_of_lt' (Nat.lt_succ_of_le small)

end Ty

/-! ### Layouts -/

namespace Layout

/-- If the slots behind variables can be told, a packer puts them down as a cursor does. -/
theorem packFrom_eq_placeFrom (vars : List Variable) (packer : Packer)
    (small : (Ty.wholeEnd vars packer.cursor).slots ≤ Ty.maxSlots) :
    (packFrom packer vars).1 = (placeFrom packer.cursor vars).1 ∧
      (packFrom packer vars).2.cursor = (placeFrom packer.cursor vars).2 := by
  induction vars generalizing packer with
  | nil => exact ⟨rfl, rfl⟩
  | cons var vars ih =>
      have told := Ty.members_told small var List.mem_cons_self
      obtain ⟨id, name, location, type, scope, state, mutability, literal⟩ := var
      rw [Ty.wholeEnd] at small
      cases mutability with
      | mutable =>
          have whole : type.wholeSlots ≤ Ty.maxSlots := told rfl
          have size : type.slots64.toNat = type.slots :=
            (type.slots64_eq_wholeSlots whole).trans (type.slots_eq_wholeSlots whole).symm
          rw [if_pos rfl, ← type.slots_eq_wholeSlots whole, ← size] at small
          have fits := Nat.le_trans (Ty.le_wholeEnd vars _).1 small
          obtain ⟨start, next⟩ :=
            packer.next_cursor type type.slots64 (Nat.lt_succ_of_le fits)
          rw [← next] at small
          obtain ⟨same, last⟩ := ih _ small
          rw [next, size] at same last
          have place := congrArg (fun cursor : Cursor =>
            Location.storage (BitVec.ofNat 256 cursor.slot) cursor.offset) start
          exact ⟨congrArg₂ List.cons (congrArg (Assignment.mk _) place) same, last⟩
      | constant =>
          obtain ⟨same, last⟩ := ih packer small
          cases literal <;> simp only [packFrom, placeFrom, same, last, and_self]
      | immutable => exact ih packer small

/-- The layout of a contract is the one without a bound, as long as its slots can be told. -/
theorem pack_eq_ofVariables (vars : List Variable)
    (small : (Ty.wholeEnd vars .start).slots < 2 ^ 64) : pack vars = ofVariables vars := by
  have told := Nat.le_of_lt_succ small
  obtain ⟨same, last⟩ := packFrom_eq_placeFrom vars .start told
  have stop : (placeFrom .start vars).2 = Ty.wholeEnd vars .start :=
    (placeFrom_end vars .start).trans (Ty.endOf_told told)
  have count := (packFrom .start vars).2.slots_cursor (by
    rw [last]
    exact stop ▸ small)
  rw [last] at count
  exact congrArg₂ Layout.mk same count

end Layout

end SolTrace
