import SolTrace.Proofs.Storage.Placement
/-!
The elements of arrays in storage. Elements that are put down one after the other take as many
slots as the type of the array says, and they are read where they are put down.
-/
set_option autoImplicit false

namespace SolTrace

namespace Decode

/-- Elements are read one after the other, each at its place. -/
theorem elementsFrom_eq_mapM (base : Ty) (slot : Word) (element : Word → Nat → Decoder Value)
    (count i : Nat) (read : List Value) :
    elementsFrom base slot element count (Cursor.afterElements base i) read =
      (List.range' i count).mapM (fun j =>
        element (slot + BitVec.ofNat 256 (base.elementPlace j).slot)
          (base.elementPlace j).offset) >>=
        fun values => pure (read.reverse ++ values) := by
  induction count generalizing i read with
  | zero => simp [elementsFrom]
  | succ count ih =>
      have place := Cursor.place_afterElements base i
      have next : ((Cursor.afterElements base i).place base).2 =
          Cursor.afterElements base (i + 1) := rfl
      simp only [elementsFrom, place, next, ih, List.range'_succ, List.mapM_cons, bind_assoc,
        pure_bind, List.reverse_cons, List.append_assoc, List.singleton_append]

end Decode

/-- The elements of an array take the slots of its type, unless those are more than can be told.
Each is put down at a place that its index gives, elements of a reference type at the start of
slots of their own and others as many in a slot as it has room for, and is read from there. -/
theorem arrayElements_placed (base : Ty) (length : Nat)
    (told : base.isReference → length * base.slots ≤ Ty.maxSlots) :
    (Cursor.afterElements base length).slots = (Ty.array base (some length)).slots ∧
      (∀ i < length, ((Cursor.afterElements base i).place base).1 =
        if base.isReference then ⟨i * base.slots, 0⟩
        else ⟨i / (32 / base.bytes), i % (32 / base.bytes) * base.bytes⟩) ∧
      ∀ (slot : Word) (element : Word → Nat → Decoder Value),
        Decode.elementsFrom base slot element length .start [] =
          (List.range length).mapM fun i =>
            let place := ((Cursor.afterElements base i).place base).1
            element (slot + BitVec.ofNat 256 place.slot) place.offset := by
  refine ⟨Cursor.afterElements_slots base length told, ?_, ?_⟩
  · intro i _
    exact Cursor.place_afterElements base i
  · intro slot element
    have read := Decode.elementsFrom_eq_mapM base slot element length 0 []
    simp only [List.reverse_nil, List.nil_append, bind_pure] at read
    simp only [Cursor.place_afterElements, List.range_eq_range']
    exact read

/-- Five numbers of six bytes share a slot, so that seven take two, and three arrays of seven take
six. -/
theorem arrayElements_placed_nested :
    (Ty.array (.elementary "uint48") (some 7)).isReference ∧
      3 * (Ty.array (.elementary "uint48") (some 7)).slots ≤ Ty.maxSlots ∧
      (Cursor.afterElements (.array (.elementary "uint48") (some 7)) 3).slots = 6 ∧
      ((Cursor.afterElements (.array (.elementary "uint48") (some 7)) 2).place
        (.array (.elementary "uint48") (some 7))).1 = ⟨4, 0⟩ ∧
      (Cursor.afterElements (.elementary "uint48") 7).slots = 2 ∧
      ((Cursor.afterElements (.elementary "uint48") 6).place (.elementary "uint48")).1 = ⟨1, 6⟩ := by
  have told : 3 * (Ty.array (.elementary "uint48") (some 7)).slots ≤ Ty.maxSlots := by decide
  obtain ⟨outer, row, -⟩ :=
    arrayElements_placed (.array (.elementary "uint48") (some 7)) 3 fun _ => told
  obtain ⟨inner, number, -⟩ := arrayElements_placed (.elementary "uint48") 7 (by decide)
  refine ⟨rfl, told, ?_, ?_, ?_, ?_⟩
  · rw [outer]
    decide
  · rw [row 2 (by decide)]
    decide
  · rw [inner]
    decide
  · rw [number 6 (by decide)]
    decide

end SolTrace
