import Mathlib.Data.List.Forall2
import SolTrace.Proofs.Storage.Decoding
import SolTrace.Proofs.Storage.Placement
/-!
The round trip of storage: the layout, the encoding of values in storage and their decoding agree
on all state variables at once.
-/
set_option autoImplicit false

namespace SolTrace

open Encoding

/-! ### Layouts -/

namespace Layout

theorem placeFrom_mutable (cursor : Cursor) (var : Variable) (vars : List Variable)
    (isMutable : var.mutability = .mutable) :
    (placeFrom cursor (var :: vars)).1 =
      ⟨var, .storage (BitVec.ofNat 256 (cursor.place var.type).1.slot)
        (cursor.place var.type).1.offset⟩ :: (placeFrom (cursor.place var.type).2 vars).1 := by
  simp only [placeFrom, isMutable]

/-- The layout of variables ends where the members of a struct with these variables do. -/
theorem placeFrom_end (vars : List Variable) (cursor : Cursor) :
    (placeFrom cursor vars).2 = Ty.endOf vars cursor := by
  induction vars generalizing cursor with
  | nil => rfl
  | cons var vars ih =>
      obtain ⟨id, name, location, type, scope, state, mutability, literal⟩ := var
      cases mutability with
      | mutable => exact ih (cursor.place type).2
      | constant =>
          cases literal with
          | none => exact ih cursor
          | some literal => exact ih cursor
      | immutable => exact ih cursor

end Layout

/-- The cells and the areas at the locations of the layout are those of the members of a struct. -/
theorem placeFrom_cells (vars : List Variable) (fields : List (String × Value)) (cursor : Cursor)
    (has : Ty.MembersHave vars fields) :
    (((Layout.placeFrom cursor vars).1.zip fields).flatMap fun placed =>
        ofAssignment placed.1 placed.2.2) = memberCells vars fields 0 cursor ∧
      (((Layout.placeFrom cursor vars).1.zip fields).flatMap fun placed =>
        areasOfAssignment placed.1 placed.2.2) = memberAreas vars fields 0 cursor := by
  induction vars generalizing fields cursor with
  | nil => exact ⟨rfl, rfl⟩
  | cons var vars ih =>
      obtain ⟨id, name, location, type, scope, state, mutability, literal⟩ := var
      cases fields with
      | nil => exact has.elim
      | cons field fields =>
          obtain ⟨rfl, rfl, hasValue, hasRest⟩ := has
          obtain ⟨sameCells, sameAreas⟩ := ih fields (cursor.place type).2 hasRest
          rw [Layout.placeFrom_mutable _ _ _ rfl]
          rw [List.zip_cons_cons, List.flatMap_cons, List.flatMap_cons, sameCells, sameAreas]
          have first (n : Nat) : (0 : Word) + BitVec.ofNat 256 n = BitVec.ofNat 256 n :=
            BitVec.zero_add _
          simp only [ofAssignment, areasOfAssignment, memberCells, memberAreas, first, and_self]

/-- State variables are read from their cells. -/
theorem placeFrom_reads (provider : Provider) (view : Word → Word) (vars : List Variable)
    (fields : List (String × Value)) (cursor : Cursor) (has : Ty.MembersHave vars fields)
    (inside : ∀ cell ∈ memberCells vars fields 0 cursor, cell.In view) :
    List.Forall₂ (fun assignment field => assignment.var.name = field.1 ∧
      Decoder.Reads provider view (State.decode provider assignment) field.2)
      (Layout.placeFrom cursor vars).1 fields := by
  induction vars generalizing fields cursor with
  | nil =>
      cases fields with
      | nil => exact .nil
      | cons field fields => exact has.elim
  | cons var vars ih =>
      obtain ⟨id, name, location, type, scope, state, mutability, literal⟩ := var
      cases fields with
      | nil => exact has.elim
      | cons field fields =>
          obtain ⟨rfl, rfl, hasValue, hasRest⟩ := has
          have room := (Cursor.place_offset cursor type).1
          have value : Decoder.Reads provider view
              (Decode.ofStorage provider type (BitVec.ofNat 256 (cursor.place type).1.slot)
                (cursor.place type).1.offset) field.2 := by
            apply Decode.readsAll type field.2 _ _ hasValue room
            intro cell within
            apply inside cell
            rw [← BitVec.zero_add (BitVec.ofNat 256 _)] at within
            exact List.mem_append_left _ within
          have rest := ih fields (cursor.place type).2 hasRest
            (fun cell within => inside cell (List.mem_append_right _ within))
          rw [Layout.placeFrom_mutable _ _ _ rfl]
          exact .cons ⟨rfl, value⟩ rest

/-- The cells of state variables have no byte in common. -/
theorem ofVariables_apart (vars : List Variable) (fields : List (String × Value))
    (has : Ty.MembersHave vars fields) (fits : Ty.MembersFit vars fields)
    (disjoint : Area.Disjoint (areasOfVariables vars fields)) :
    (∀ cell ∈ ofVariables vars fields, cell.Proper) ∧
      (ofVariables vars fields).Pairwise Cell.Apart := by
  obtain ⟨laid, stop⟩ := members_laid 0 vars fields .start (fun var _ => laidAll var.type) has fits
    (Nat.zero_le 32)
  have same := placeFrom_cells vars fields .start has
  rw [← same.1, ← same.2] at laid
  rw [← Layout.placeFrom_end] at laid stop
  have position := Cursor.position_le_slots _ stop
  exact ⟨laid.proper, laid.apart _ position disjoint⟩

/-- Storage that has the values of state variables in their cells, whatever else it has, is decoded
to exactly these values. If the data of dynamic values is apart, there is such storage, and its
other bytes are zeros. -/
theorem storage_roundTrip (provider : Provider) (vars : List Variable)
    (fields : List (String × Value)) (has : Ty.MembersHave vars fields) :
    (∀ view : Word → Word, (∀ cell ∈ ofVariables vars fields, cell.In view) →
      List.Forall₂ (fun assignment field => assignment.var.name = field.1 ∧
        Decoder.Reads provider view (State.decode provider assignment) field.2)
        (Layout.ofVariables vars).assignments fields) ∧
      (Ty.MembersFit vars fields → Area.Disjoint (areasOfVariables vars fields) →
        Encodes (image (ofVariables vars fields)) (ofVariables vars fields)) := by
  constructor
  · intro view inside
    have same := (placeFrom_cells vars fields .start has).1
    apply placeFrom_reads provider view vars fields .start has
    rw [← same]
    exact inside
  · intro fits disjoint
    obtain ⟨proper, apart⟩ := ofVariables_apart vars fields has fits disjoint
    exact image_encodes _ proper apart

/-! ### A contract with nested state variables -/

namespace Wallet

/-- A mutable state variable, or a member of a struct. -/
def declared (id : NodeId) (name : String) (type : Ty) : Variable :=
  ⟨id, name, .storage, type, 0, true, .mutable, none⟩

def settings : List Variable :=
  [declared 1 "open" (.elementary "bool"), declared 2 "delta" (.elementary "int16"),
    declared 3 "title" (.elementary "string")]

def vars : List Variable :=
  [declared 4 "settings" (.struct "Settings" settings),
    declared 5 "owner" (.elementary "address"), declared 6 "phase" (.enum "Phase" ["Idle", "Busy"]),
    declared 7 "grid" (.array (.array (.elementary "uint8") (some 3)) (some 2)),
    declared 8 "names" (.array (.elementary "string") none)]

def fields : List (String × Value) :=
  [("settings", .struct [("open", .bool true), ("delta", .int (-5)), ("title", .string "wallet")]),
    ("owner", .address 0x11), ("phase", .enum "Busy"),
    ("grid", .array [.array [.uint 1, .uint 2, .uint 3], .array [.uint 4, .uint 5, .uint 6]]),
    ("names", .array [.string "ada", .string "bob"])]

/-- A chain where the slots of every account are those of a storage. -/
def chain (view : Word → Word) : Provider where
  transaction _ := .error (.decode .noStep)
  trace _ := .error (.decode .noStep)
  code _ := .error (.decode .noStep)
  storage _ slot _ := .ok (view slot)

def state : State :=
  (State.new 0 true).apply (.deployed 0x22) .empty

theorem state_sees (view : Word → Word) : state.Sees (chain view) view :=
  fun _ => rfl

theorem names_read : Elementary.ofName? "bool" = some .bool ∧
    Elementary.ofName? "int16" = some (.int 2) ∧ Elementary.ofName? "uint8" = some (.uint 1) ∧
    Elementary.ofName? "address" = some .address ∧
    Elementary.ofName? "string" = some .string := by
  decide

theorem has : Ty.MembersHave vars fields := by
  obtain ⟨bool, int, uint, address, string⟩ := names_read
  have texts : ∀ text ∈ ["wallet", "ada", "bob"],
      (Text.utf8 text).length ≤ Decode.maxLength := by decide
  have count : 2 ≤ Decode.maxLength := by decide
  simp [vars, fields, settings, declared, Ty.MembersHave, Ty.Has, Elementary.Has, bool, int, uint,
    address, string, texts, count]

theorem fits : Ty.MembersFit vars fields := by
  obtain ⟨-, -, uint, -, string⟩ := names_read
  simp [vars, fields, settings, declared, Ty.MembersFit, Ty.Fits, Ty.isReference, Ty.slots,
    Ty.maxSlots, Text.maxNat64, string, uint, Ty.bytes, Elementary.width]

theorem disjoint : Area.Disjoint (areasOfVariables vars fields) := by
  have areas : areasOfVariables vars fields = [⟨0, 6⟩, ⟨Decode.dataSlot 5, 2⟩] := by
    rfl
  have data : Decode.dataSlot 5 =
      0x036b6384b5eca791c62761152d0c79bb0604c104a5fb6f4eb0703f3154bb3db0 := Decode.keccak256_five
  rw [areas, data]
  constructor
  · decide
  · decide

end Wallet

/-- The state variables of the contract are decoded from the image of their values. -/
theorem storage_roundTrip_wallet :
    Ty.MembersHave Wallet.vars Wallet.fields ∧
      Encodes (image (ofVariables Wallet.vars Wallet.fields))
        (ofVariables Wallet.vars Wallet.fields) ∧
      List.Forall₂ (fun assignment field => ∃ after, (State.decode
          (Wallet.chain (image (ofVariables Wallet.vars Wallet.fields))) assignment).run.run
            Wallet.state = (.ok field.2, after))
        (Layout.ofVariables Wallet.vars).assignments Wallet.fields := by
  obtain ⟨reads, encodes⟩ := storage_roundTrip
    (Wallet.chain (image (ofVariables Wallet.vars Wallet.fields))) Wallet.vars Wallet.fields
    Wallet.has
  have encoded := encodes Wallet.fits Wallet.disjoint
  refine ⟨Wallet.has, encoded, ?_⟩
  apply (reads _ encoded.held).imp
  intro assignment field read
  obtain ⟨after, run, -⟩ := read.2 Wallet.state (Wallet.state_sees _)
  exact ⟨after, run⟩

end SolTrace
