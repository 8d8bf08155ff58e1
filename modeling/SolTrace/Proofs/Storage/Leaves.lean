import SolTrace.Proofs.Storage.RoundTrip
/-!
The leaves of variables: the parts of their values that are kept in slots of their own layout. They
are the values and lengths that are left when structs and arrays of fixed size are taken apart. The
leaves of all variables are put down one after the other, so no byte is in two of them.
-/
set_option autoImplicit false

namespace SolTrace

open Encoding

/-! ### Leaves -/

/-- A part of a value that is not taken apart any further: a packed value, or the slot of a byte
string, of a mapping or of a dynamic array. -/
structure Leaf where
  type : Ty
  slot : Word
  offset : Nat

namespace Leaf

/-- The leaf of a type at an offset of a slot. Only packed values have an offset. -/
def ofType (type : Ty) (slot : Word) (offset : Nat) : Leaf :=
  ⟨type, slot, if type.isReference then 0 else offset⟩

/-- The bytes that a leaf takes: the width of a packed value, or the whole slot. -/
def width (leaf : Leaf) : Nat :=
  leaf.type.bytes

/-- The bytes of a leaf, with no number in them yet. -/
def cell (leaf : Leaf) : Cell :=
  ⟨leaf.slot, leaf.offset, leaf.width, 0⟩

/-- No byte is in both leaves. -/
def Apart (leaf other : Leaf) : Prop :=
  leaf.cell.Apart other.cell

end Leaf

/-- The leaves of elements that are packed from a slot on. -/
def elementLeaves (base : Ty) (leaves : Word → Nat → List Leaf) (first : Word) :
    Nat → Cursor → List Leaf
  | 0, _ => []
  | count + 1, cursor =>
      let (place, next) := cursor.place base
      leaves (first + BitVec.ofNat 256 place.slot) place.offset ++
        elementLeaves base leaves first count next

mutual

/-- The leaves of a value at an offset of a slot. -/
def leaves : Ty → Word → Nat → List Leaf
  | .struct _ members, slot, _ => memberLeaves members slot .start
  | .array base (some count), slot, _ => elementLeaves base (leaves base) slot count .start
  | .array base none, slot, offset => [Leaf.ofType (.array base none) slot offset]
  | .mapping key value, slot, offset => [Leaf.ofType (.mapping key value) slot offset]
  | .elementary name, slot, offset => [Leaf.ofType (.elementary name) slot offset]
  | .enum name values, slot, offset => [Leaf.ofType (.enum name values) slot offset]

/-- The leaves of variables that are put down from a cursor on, slots counted from a first one. -/
def memberLeaves : List Variable → Word → Cursor → List Leaf
  | [], _, _ => []
  | ⟨_, _, _, type, _, _, mutability, _⟩ :: members, first, cursor =>
      if mutability = .mutable then
        let (place, next) := cursor.place type
        leaves type (first + BitVec.ofNat 256 place.slot) place.offset ++
          memberLeaves members first next
      else memberLeaves members first cursor

end

/-- The leaves of a variable in storage. -/
def Assignment.leaves (assignment : Assignment) : List Leaf :=
  match assignment.location with
  | .storage slot offset => SolTrace.leaves assignment.var.type slot offset
  | _ => []

/-- The leaves of all variables. -/
def Layout.leaves (layout : Layout) : List Leaf :=
  layout.assignments.flatMap Assignment.leaves

/-! ### Sizes -/

namespace Ty

mutual

/-- The slots that a value takes, however many these are. -/
def wholeSlots : Ty → Nat
  | .struct _ members => max 1 (wholeEnd members .start).slots
  | .array base (some length) =>
      if base.isReference then length * base.wholeSlots
      else
        let perSlot := 32 / max 1 base.bytes
        (length + perSlot - 1) / perSlot
  | _ => 1

/-- The cursor after variables that are put down from a cursor on, however many slots they take. -/
def wholeEnd : List Variable → Cursor → Cursor
  | [], cursor => cursor
  | ⟨_, _, _, type, _, _, mutability, _⟩ :: members, cursor =>
      if mutability = .mutable then
        wholeEnd members ((cursor.align type.bytes type.isReference).advance type.bytes
          type.wholeSlots type.isReference)
      else wholeEnd members cursor

end

theorem wholeSlots_of_value (type : Ty) (value : type.isReference = false) :
    type.wholeSlots = 1 := by
  cases type with
  | elementary name => rfl
  | enum name values => rfl
  | array base length => cases value
  | mapping key value => rfl
  | struct name members => cases value

end Ty

/-- A value that is put down takes slots of its own behind those in use. -/
theorem Cursor.slots_advance (cursor : Cursor) (type : Ty) (slots : Nat)
    (value : type.isReference = false → slots = 1) :
    let next := (cursor.align type.bytes type.isReference).advance type.bytes slots type.isReference
    cursor.slots ≤ next.slots ∧ slots ≤ next.slots := by
  have bounds := type.bytes_bounds
  have aligned : cursor.slot ≤ (cursor.align type.bytes type.isReference).slot ∧
      (type.isReference = true →
        cursor.slots ≤ (cursor.align type.bytes type.isReference).slot) := by
    simp only [align, Cursor.slots]
    split
    · exact ⟨Nat.le_succ _, fun _ => by split <;> simp⟩
    · next inside =>
        refine ⟨Nat.le_refl _, fun reference => Nat.le_of_eq ?_⟩
        exact if_neg fun filled => inside (.inr ⟨reference, filled⟩)
  generalize cursor.align type.bytes type.isReference = place at aligned ⊢
  cases reference : type.isReference with
  | true =>
      have more := aligned.2 reference
      simp only [advance, or_true, if_true, Cursor.slots, Nat.lt_irrefl, if_false] at more ⊢
      omega
  | false =>
      obtain rfl := value reference
      have filled : 0 < place.offset + type.bytes := by omega
      have begun : cursor.slots ≤ cursor.slot + 1 := by
        simp only [Cursor.slots]
        split <;> omega
      simp only [advance, Nat.lt_irrefl, Bool.false_eq_true, or_self, if_false]
      simp only [Cursor.slots, if_pos filled] at begun ⊢
      omega

namespace Ty

/-- Variables take at least the slots in use before them and those of each of them. -/
theorem le_wholeEnd (members : List Variable) (cursor : Cursor) :
    cursor.slots ≤ (wholeEnd members cursor).slots ∧
      ∀ member ∈ members, member.mutability = .mutable →
        member.type.wholeSlots ≤ (wholeEnd members cursor).slots := by
  induction members generalizing cursor with
  | nil => exact ⟨Nat.le_refl _, fun _ within => absurd within List.not_mem_nil⟩
  | cons member members ih =>
      obtain ⟨id, name, location, type, scope, state, mutability, literal⟩ := member
      rw [wholeEnd]
      by_cases isMutable : mutability = .mutable
      · rw [if_pos isMutable]
        have here := cursor.slots_advance type type.wholeSlots type.wholeSlots_of_value
        obtain ⟨more, rest⟩ := ih ((cursor.align type.bytes type.isReference).advance type.bytes
          type.wholeSlots type.isReference)
        refine ⟨Nat.le_trans here.1 more, fun other within counts => ?_⟩
        rcases List.mem_cons.mp within with rfl | within
        · exact Nat.le_trans here.2 more
        · exact rest other within counts
      · rw [if_neg isMutable]
        obtain ⟨more, rest⟩ := ih cursor
        refine ⟨more, fun other within counts => ?_⟩
        rcases List.mem_cons.mp within with rfl | within
        · exact absurd counts isMutable
        · exact rest other within counts

theorem endOf_eq_wholeEnd (members : List Variable)
    (same : ∀ member ∈ members, member.mutability = .mutable →
      member.type.slots = member.type.wholeSlots) (cursor : Cursor) :
    endOf members cursor = wholeEnd members cursor := by
  induction members generalizing cursor with
  | nil => rfl
  | cons member members ih =>
      have rest := ih fun other within => same other (List.mem_cons_of_mem _ within)
      have here := same member List.mem_cons_self
      obtain ⟨id, name, location, type, scope, state, mutability, literal⟩ := member
      rw [endOf, rest]
      cases mutability with
      | mutable =>
          have here : type.slots = type.wholeSlots := here rfl
          simp only [endOfOne, wholeEnd, if_true, here]
      | constant => rfl
      | immutable => rfl

/-- Sizes that can be told are told right. -/
theorem slots_eq_wholeSlots (type : Ty) (small : type.wholeSlots ≤ maxSlots) :
    type.slots = type.wholeSlots := by
  induction type using Ty.induction with
  | elementary name => rfl
  | mapping key value => rfl
  | enum name values => rfl
  | struct name members each =>
      rw [wholeSlots] at small
      have parts := (le_wholeEnd members .start).2
      rw [slots, wholeSlots, endOf_eq_wholeEnd members]
      intro member within isMutable
      have part := parts member within isMutable
      exact each member within (by omega)
  | array base length each =>
      cases length with
      | none => rfl
      | some length =>
          rw [wholeSlots] at small
          rw [slots, wholeSlots]
          cases reference : base.isReference with
          | false => rfl
          | true =>
              simp only [reference, if_true] at small ⊢
              cases length with
              | zero => simp
              | succ count =>
                  have element : base.wholeSlots ≤ (count + 1) * base.wholeSlots :=
                    Nat.le_mul_of_pos_left _ (Nat.succ_pos count)
                  rw [each (Nat.le_trans element small)]
                  exact Nat.min_eq_left small

/-- The sizes of members can be told if the size of the struct can. -/
theorem members_told {members : List Variable} {cursor : Cursor}
    (small : (wholeEnd members cursor).slots ≤ maxSlots) :
    ∀ member ∈ members, member.mutability = .mutable → member.type.wholeSlots ≤ maxSlots :=
  fun member within isMutable =>
    Nat.le_trans ((le_wholeEnd members cursor).2 member within isMutable) small

theorem endOf_told {members : List Variable} {cursor : Cursor}
    (small : (wholeEnd members cursor).slots ≤ maxSlots) :
    endOf members cursor = wholeEnd members cursor :=
  endOf_eq_wholeEnd members (fun member within isMutable =>
    slots_eq_wholeSlots _ (members_told small member within isMutable)) cursor

end Ty

/-! ### Leaves are put down in order -/

/-- The leaves of values of a type are put down at any place that is one for the type. -/
def LeavesLaid (type : Ty) : Prop :=
  ∀ slot offset, type.wholeSlots ≤ Ty.maxSlots → offset + type.bytes ≤ 32 →
    (type.isReference → offset = 0) →
    Laid slot offset (offset + type.extent) ((leaves type slot offset).map Leaf.cell) []

/-- A single leaf is put down at its place. -/
theorem single_laid (type : Ty) (slot : Word) (offset : Nat) (one : type.slots = 1)
    (room : offset + type.bytes ≤ 32) (aligned : type.isReference → offset = 0) :
    Laid slot offset (offset + type.extent) [(Leaf.ofType type slot offset).cell] [] := by
  have bounds := type.bytes_bounds
  have place : (Leaf.ofType type slot offset).cell = ⟨slot, offset, type.bytes, 0⟩ := by
    simp only [Leaf.ofType, Leaf.cell, Leaf.width]
    split
    · next reference => rw [aligned reference]
    · rfl
  have laid := Laid.single ⟨slot, offset, type.bytes, 0⟩
    ⟨bounds.1, room, Nat.pow_pos (by decide)⟩ rfl
  rw [place]
  refine laid.mono (Nat.le_refl _) (Nat.add_le_add_left ?_ offset)
  show type.bytes ≤ type.extent
  rw [Ty.extent]
  split
  · rw [one]
    exact bounds.2
  · exact Nat.le_refl _

/-- The leaves of the elements of an array are put down between the cursors before and after
them. -/
theorem elementLeaves_laid (base : Ty) (each : LeavesLaid base)
    (small : base.wholeSlots ≤ Ty.maxSlots) (first : Word) (count i : Nat) :
    Laid first (Cursor.afterElements base i).position
      (Cursor.afterElements base (i + count)).position
      ((elementLeaves base (leaves base) first count (Cursor.afterElements base i)).map Leaf.cell)
      [] := by
  induction count generalizing i with
  | zero => exact Laid.nil (Nat.le_refl _)
  | succ count ih =>
      have inside : (Cursor.afterElements base i).offset ≤ 32 := by
        cases i with
        | zero => exact Nat.zero_le 32
        | succ i => exact Cursor.place_next_offset _ base
      have room := Cursor.place_offset (Cursor.afterElements base i) base
      have order := Cursor.place_position (Cursor.afterElements base i) base inside
      have value := (each (first + BitVec.ofNat 256
        ((Cursor.afterElements base i).place base).1.slot) _ small room.1 room.2).shift
      rw [← Nat.add_assoc] at value
      have rest := ih (i + 1)
      rw [show i + (count + 1) = i + 1 + count by omega, elementLeaves, List.map_append]
      exact (value.mono order.1 order.2).append rest

/-- The leaves of variables are put down between the cursors before and after them. -/
theorem memberLeaves_laid (first : Word) (members : List Variable) (cursor : Cursor)
    (each : ∀ member ∈ members, LeavesLaid member.type)
    (small : ∀ member ∈ members, member.mutability = .mutable →
      member.type.wholeSlots ≤ Ty.maxSlots) (inside : cursor.offset ≤ 32) :
    Laid first cursor.position (Ty.endOf members cursor).position
      ((memberLeaves members first cursor).map Leaf.cell) [] ∧
      (Ty.endOf members cursor).offset ≤ 32 := by
  induction members generalizing cursor with
  | nil => exact ⟨Laid.nil (Nat.le_refl _), inside⟩
  | cons member members ih =>
      have here := each member List.mem_cons_self
      have told := small member List.mem_cons_self
      replace ih (cursor : Cursor) := ih cursor
        (fun other within => each other (List.mem_cons_of_mem _ within))
        (fun other within => small other (List.mem_cons_of_mem _ within))
      obtain ⟨id, name, location, type, scope, state, mutability, literal⟩ := member
      cases mutability with
      | mutable =>
          have room := Cursor.place_offset cursor type
          have order := Cursor.place_position cursor type inside
          have value := (here (first + BitVec.ofNat 256 (cursor.place type).1.slot) _ (told rfl)
            room.1 room.2).shift
          rw [← Nat.add_assoc] at value
          obtain ⟨rest, stop⟩ := ih (cursor.place type).2 (Cursor.place_next_offset cursor type)
          rw [memberLeaves, if_pos rfl, List.map_append]
          exact ⟨(value.mono order.1 order.2).append rest, stop⟩
      | constant => exact ih cursor inside
      | immutable => exact ih cursor inside

/-- The leaves of every type are put down at their places. -/
theorem leavesLaid (type : Ty) : LeavesLaid type := by
  induction type using Ty.induction with
  | elementary name =>
      intro slot offset _ room aligned
      rw [leaves]
      exact single_laid _ slot offset rfl room aligned
  | mapping key value =>
      intro slot offset _ room aligned
      rw [leaves]
      exact single_laid _ slot offset rfl room aligned
  | enum name values =>
      intro slot offset _ room aligned
      rw [leaves]
      exact single_laid _ slot offset rfl room aligned
  | struct name members each =>
      intro slot offset small room aligned
      rw [Ty.wholeSlots] at small
      obtain ⟨laid, stop⟩ := memberLeaves_laid slot members .start each
        (Ty.members_told (Nat.le_trans (Nat.le_max_right _ _) small)) (Nat.zero_le 32)
      have position := Cursor.position_le_slots _ stop
      rw [aligned rfl, leaves]
      apply laid.mono (Nat.le_refl 0)
      show _ ≤ 0 + 32 * max 1 (Ty.endOf members .start).slots
      omega
  | array base length each =>
      intro slot offset small room aligned
      cases length with
      | none =>
          rw [leaves]
          exact single_laid _ slot offset rfl room aligned
      | some count =>
          rw [aligned rfl, leaves, Nat.zero_add]
          cases count with
          | zero => exact Laid.nil (Nat.zero_le _)
          | succ count =>
              have told : base.wholeSlots ≤ Ty.maxSlots ∧
                  (base.isReference → (count + 1) * base.slots ≤ Ty.maxSlots) := by
                rw [Ty.wholeSlots] at small
                cases reference : base.isReference with
                | false =>
                    rw [base.wholeSlots_of_value reference]
                    exact ⟨by decide, nofun⟩
                | true =>
                    simp only [reference, if_true] at small
                    have element : base.wholeSlots ≤ (count + 1) * base.wholeSlots :=
                      Nat.le_mul_of_pos_left _ (Nat.succ_pos count)
                    have enough := Nat.le_trans element small
                    rw [base.slots_eq_wholeSlots enough]
                    exact ⟨enough, fun _ => small⟩
              have laid := elementLeaves_laid base each told.1 slot (count + 1) 0
              rw [Nat.zero_add] at laid
              exact laid.mono (Nat.le_refl 0)
                (Cursor.afterElements_position base (count + 1) told.2)

end SolTrace
