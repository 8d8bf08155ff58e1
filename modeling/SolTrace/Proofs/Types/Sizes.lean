import SolTrace.Layout
import SolTrace.Proofs.Storage.Packing
import SolTrace.Proofs.Types.References
/-!
Layouts by the sizes of structs. Where the members of a struct are depends on the members of other
structs only through the numbers of slots that these take, so two ways to fill in structs are
compared by their sizes.
-/
set_option autoImplicit false

namespace SolTrace

namespace Ty

/-- Gives members to the structs that are parts of a type's values, and leaves references alone. -/
def expand (members : String → List Variable) : Ty → Ty
  | .array base (some length) => .array (base.expand members) (some length)
  | .struct name _ => .struct name (members name)
  | type => type

/-- The slots that a value takes if structs take the given numbers of slots. -/
def sizeBy (size : String → Nat) : Ty → Nat
  | .struct name _ => size name
  | .array base (some length) =>
      if base.isReference then min (length * base.sizeBy size) maxSlots
      else
        let perSlot := 32 / max 1 base.bytes
        (length + perSlot - 1) / perSlot
  | _ => 1

/-- The slots of structs with the given members. -/
def sizesOf (members : String → List Variable) (name : String) : Nat :=
  (Ty.struct name (members name)).slots

theorem fill_bytes (members : String → List Variable) (type : Ty) :
    (type.fill members).bytes = type.bytes := by
  cases type <;> rfl

theorem fill_isReference (members : String → List Variable) (type : Ty) :
    (type.fill members).isReference = type.isReference := by
  cases type <;> rfl

theorem expand_bytes (members : String → List Variable) (type : Ty) :
    (type.expand members).bytes = type.bytes := by
  fun_cases expand members type <;> rfl

theorem expand_isReference (members : String → List Variable) (type : Ty) :
    (type.expand members).isReference = type.isReference := by
  fun_cases expand members type <;> rfl

theorem slots_fill (members : String → List Variable) (type : Ty) :
    (type.fill members).slots = type.sizeBy (sizesOf members) := by
  fun_induction sizeBy (sizesOf members) type with
  | case1 name _ => rfl
  | case2 base length reference ih => simp [fill, slots, fill_isReference, reference, ih]
  | case3 base length value perSlot =>
      simp [fill, slots, fill_isReference, fill_bytes, value, perSlot]
  | case4 type notStruct notFixed =>
      cases type with
      | struct name members => exact absurd rfl (notStruct name members)
      | array base length =>
          cases length with
          | none => rfl
          | some length => exact absurd rfl (notFixed base length)
      | _ => rfl

theorem slots_expand (members : String → List Variable) (type : Ty) :
    (type.expand members).slots = type.sizeBy (sizesOf members) := by
  fun_induction sizeBy (sizesOf members) type with
  | case1 name _ => rfl
  | case2 base length reference ih => simp [expand, slots, expand_isReference, reference, ih]
  | case3 base length value perSlot =>
      simp [expand, slots, expand_isReference, expand_bytes, value, perSlot]
  | case4 type notStruct notFixed =>
      cases type with
      | struct name members => exact absurd rfl (notStruct name members)
      | array base length =>
          cases length with
          | none => rfl
          | some length => exact absurd rfl (notFixed base length)
      | _ => rfl

/-- Whether giving structs members changes types only by the slots that structs take. -/
structure Sized (make : Ty → Ty) (size : String → Nat) : Prop where
  bytes : ∀ type, (make type).bytes = type.bytes
  isReference : ∀ type, (make type).isReference = type.isReference
  slots : ∀ type, (make type).slots = type.sizeBy size

theorem fill_sized (members : String → List Variable) :
    Sized (Ty.fill members) (sizesOf members) where
  bytes := fill_bytes members
  isReference := fill_isReference members
  slots := slots_fill members

theorem expand_sized (members : String → List Variable) :
    Sized (Ty.expand members) (sizesOf members) where
  bytes := expand_bytes members
  isReference := expand_isReference members
  slots := slots_expand members

/-! ### Comparison of sizes -/

section

variable {size other : String → Nat}

theorem sizeBy_of_value {type : Ty} (value : type.isReference = false) : type.sizeBy size = 1 := by
  cases type with
  | array base length => cases value
  | struct name members => cases value
  | _ => rfl

theorem sizeBy_mono (type : Ty) (less : ∀ name ∈ type.held, size name ≤ other name) :
    type.sizeBy size ≤ type.sizeBy other := by
  fun_induction sizeBy size type with
  | case1 name _ => exact less name List.mem_cons_self
  | case2 base length reference ih =>
      rw [sizeBy, if_pos reference]
      have smaller := Nat.mul_le_mul_left length (ih less)
      omega
  | case3 base length value perSlot => simp [sizeBy, value, perSlot]
  | case4 type notStruct notFixed => exact Nat.le_of_eq (sizeBy.eq_3 _ _ notStruct notFixed).symm

/-- Whether the fixed-size arrays in a type's values are not empty and take no more slots than can
be told. -/
def Moderate (size : String → Nat) : Ty → Prop
  | .array base (some length) =>
      0 < length ∧ (base.isReference = true → length * base.sizeBy size ≤ maxSlots) ∧
        base.Moderate size
  | _ => True

end

end Ty

/-! ### Members -/

/-- The cursor after variables if structs take the given numbers of slots. -/
def endBy (size : String → Nat) : List Variable → Cursor → Cursor
  | [], cursor => cursor
  | var :: vars, cursor =>
      endBy size vars
        (if var.mutability = .mutable then
          (cursor.align var.type.bytes var.type.isReference).advance var.type.bytes
            (var.type.sizeBy size) var.type.isReference
        else cursor)

def Variable.expand (members : String → List Variable) : Variable → Variable :=
  Variable.retype (Ty.expand members)

theorem endOf_retype {make : Ty → Ty} {size : String → Nat} (sized : Ty.Sized make size)
    (vars : List Variable) :
    ∀ cursor, Ty.endOf (vars.map (Variable.retype make)) cursor = endBy size vars cursor := by
  induction vars with
  | nil => exact fun _ => rfl
  | cons var vars ih =>
      intro cursor
      rw [List.map_cons, Ty.endOf, ih, endBy]
      congr 1
      simp only [Variable.retype, Ty.endOfOne, sized.bytes, sized.isReference, sized.slots]
      cases var.mutability <;> rfl

/-- The number of slots of a struct with the given members, by the sizes of the structs in them. -/
def slotsBy (size : String → Nat) (vars : List Variable) : Nat :=
  max 1 (endBy size vars .start).slots

theorem slots_struct_retype {make : Ty → Ty} {size : String → Nat} (sized : Ty.Sized make size)
    (name : String) (vars : List Variable) :
    (Ty.struct name (vars.map (Variable.retype make))).slots = slotsBy size vars := by
  rw [Ty.slots, endOf_retype sized, slotsBy]

section

variable {size other : String → Nat}

theorem Cursor.align_shift (cursor : Cursor) (width skipped : Nat) (reference : Bool) :
    Cursor.align ⟨cursor.slot + skipped, cursor.offset⟩ width reference =
      ⟨(cursor.align width reference).slot + skipped, (cursor.align width reference).offset⟩ := by
  unfold Cursor.align
  split
  · simp only [Cursor.mk.injEq, and_true]
    omega
  · rfl

/-- A larger value moves what comes behind it by whole slots, as only references differ in size. -/
theorem Cursor.advance_shift (cursor : Cursor) (type : Ty) (skipped : Nat)
    (less : type.sizeBy size ≤ type.sizeBy other) :
    Cursor.advance ⟨cursor.slot + skipped, cursor.offset⟩ type.bytes (type.sizeBy other)
        type.isReference =
      ⟨(cursor.advance type.bytes (type.sizeBy size) type.isReference).slot +
          (skipped + (type.sizeBy other - type.sizeBy size)),
        (cursor.advance type.bytes (type.sizeBy size) type.isReference).offset⟩ := by
  cases reference : type.isReference with
  | true =>
      simp only [Cursor.advance, or_true, if_true, Cursor.mk.injEq, and_true]
      omega
  | false =>
      rw [Ty.sizeBy_of_value reference, Ty.sizeBy_of_value reference]
      simp [Cursor.advance]

/-- With larger parts variables end further on, at the same offset, by at least what each of those
that are put down is larger. -/
theorem endBy_shift (vars : List Variable)
    (less : ∀ var ∈ vars, ∀ name ∈ var.type.held, size name ≤ other name) :
    ∀ (cursor : Cursor) (skipped : Nat), ∃ more,
      endBy other vars ⟨cursor.slot + skipped, cursor.offset⟩ =
        ⟨(endBy size vars cursor).slot + (skipped + more), (endBy size vars cursor).offset⟩ ∧
      ∀ var ∈ vars, var.mutability = .mutable →
        var.type.sizeBy other - var.type.sizeBy size ≤ more := by
  induction vars with
  | nil => exact fun cursor skipped => ⟨0, rfl, nofun⟩
  | cons var vars ih =>
      intro cursor skipped
      have ih := ih fun var member => less var (List.mem_cons_of_mem _ member)
      simp only [endBy]
      by_cases placed : var.mutability = .mutable
      · rw [if_pos placed, if_pos placed, Cursor.align_shift, Cursor.advance_shift _ _ _
          (Ty.sizeBy_mono var.type (less var List.mem_cons_self))]
        obtain ⟨more, ends, each⟩ := ih _ (skipped + (var.type.sizeBy other - var.type.sizeBy size))
        refine ⟨var.type.sizeBy other - var.type.sizeBy size + more, ?_, ?_⟩
        · rw [ends, Nat.add_assoc skipped]
        · intro later member placed
          rcases List.mem_cons.mp member with rfl | member
          · exact Nat.le_add_right _ _
          · exact Nat.le_trans (each later member placed) (Nat.le_add_left _ _)
      · rw [if_neg placed, if_neg placed]
        obtain ⟨more, ends, each⟩ := ih cursor skipped
        refine ⟨more, ends, ?_⟩
        intro later member mutable
        rcases List.mem_cons.mp member with rfl | member
        · exact absurd mutable placed
        · exact each later member mutable

theorem Cursor.slots_shift (cursor : Cursor) (more : Nat) :
    Cursor.slots ⟨cursor.slot + more, cursor.offset⟩ = cursor.slots + more := by
  unfold Cursor.slots
  dsimp only
  split <;> omega

theorem slotsBy_mono (vars : List Variable)
    (less : ∀ var ∈ vars, ∀ name ∈ var.type.held, size name ≤ other name) :
    slotsBy size vars ≤ slotsBy other vars := by
  obtain ⟨more, ends, _⟩ := endBy_shift vars less .start 0
  have ends : endBy other vars .start = _ := ends
  rw [slotsBy, slotsBy, ends, Cursor.slots_shift]
  omega

theorem slotsBy_congr (vars : List Variable)
    (same : ∀ var ∈ vars, ∀ name ∈ var.type.held, size name = other name) :
    slotsBy size vars = slotsBy other vars :=
  Nat.le_antisymm
    (slotsBy_mono vars fun var member name held => Nat.le_of_eq (same var member name held))
    (slotsBy_mono vars fun var member name held => Nat.le_of_eq (same var member name held).symm)

end

end SolTrace
