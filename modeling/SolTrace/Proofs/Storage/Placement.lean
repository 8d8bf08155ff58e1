import SolTrace.Proofs.Storage.Image
import SolTrace.Proofs.Storage.Packing
/-!
The cells of a value have no byte in common: they are put down one after the other, in its own
slots and in areas of data that are apart from these and from each other.
-/
set_option autoImplicit false

namespace SolTrace

open Encoding

/-! ### Areas -/

theorem add_ofNat_inj (first : Word) (i j : Nat) (small : i < 2 ^ 256) (other : j < 2 ^ 256)
    (same : first + BitVec.ofNat 256 i = first + BitVec.ofNat 256 j) : i = j := by
  have numbers := congrArg BitVec.toNat ((BitVec.add_right_inj first).mp same)
  rwa [BitVec.toNat_ofNat, BitVec.toNat_ofNat, Nat.mod_eq_of_lt small, Nat.mod_eq_of_lt other]
    at numbers

theorem add_ofNat_add (first : Word) (i j : Nat) :
    first + BitVec.ofNat 256 i + BitVec.ofNat 256 j = first + BitVec.ofNat 256 (i + j) := by
  rw [BitVec.add_assoc, BitVec.ofNat_add]

namespace Area.Disjoint

/-- A part of the first area with some of the other ones. -/
theorem part {first : Word} {size : Nat} {areas some : List Area} (skipped count : Nat)
    (disjoint : Disjoint (⟨first, size⟩ :: areas)) (fits : skipped + count ≤ size)
    (among : some.Sublist areas) :
    Disjoint (⟨first + BitVec.ofNat 256 skipped, count⟩ :: some) := by
  have bound : size ≤ 2 ^ 256 := disjoint.small ⟨first, size⟩ List.mem_cons_self
  obtain ⟨fromFirst, fromAreas⟩ := List.pairwise_cons.mp disjoint.apart
  constructor
  · intro area within
    rcases List.mem_cons.mp within with rfl | within
    · show count ≤ 2 ^ 256
      omega
    · exact disjoint.small area (List.mem_cons_of_mem _ (among.subset within))
  · apply List.pairwise_cons.mpr
    refine ⟨fun area within i small j other => ?_, fromAreas.sublist among⟩
    rw [add_ofNat_add]
    have small : i < count := small
    exact fromFirst area (among.subset within) (skipped + i) (show skipped + i < size by omega) j
      other

theorem tail {area : Area} {areas : List Area} (disjoint : Disjoint (area :: areas)) :
    Disjoint areas :=
  ⟨fun other within => disjoint.small other (List.mem_cons_of_mem area within),
    (List.pairwise_cons.mp disjoint.apart).2⟩

end Area.Disjoint

/-! ### Where cells are -/

namespace Cell

/-- Whether a cell is between two positions, counted in bytes from a slot on. -/
def Within (cell : Cell) (first : Word) (low high : Nat) : Prop :=
  ∃ index, cell.slot = first + BitVec.ofNat 256 index ∧ low ≤ 32 * index + cell.offset ∧
    32 * index + cell.offset + cell.width ≤ high

def InArea (cell : Cell) (area : Area) : Prop :=
  cell.Within area.first 0 (32 * area.size)

/-- Whether a cell is between two positions or in one of some areas. -/
def Inside (cell : Cell) (first : Word) (low high : Nat) (areas : List Area) : Prop :=
  cell.Within first low high ∨ ∃ area ∈ areas, cell.InArea area

theorem Within.mono {cell : Cell} {first : Word} {low high lower higher : Nat}
    (within : cell.Within first low high) (below : lower ≤ low) (above : high ≤ higher) :
    cell.Within first lower higher := by
  obtain ⟨index, slot, start, stop⟩ := within
  exact ⟨index, slot, by omega, by omega⟩

theorem Within.shift {cell : Cell} {first : Word} {skipped low high : Nat}
    (within : cell.Within (first + BitVec.ofNat 256 skipped) low high) :
    cell.Within first (32 * skipped + low) (32 * skipped + high) := by
  obtain ⟨index, slot, start, stop⟩ := within
  refine ⟨skipped + index, ?_, by omega, by omega⟩
  rw [slot, add_ofNat_add]

theorem Inside.mono {cell : Cell} {first : Word} {low high lower higher : Nat}
    {areas more : List Area} (inside : cell.Inside first low high areas) (below : lower ≤ low)
    (above : high ≤ higher) (among : areas ⊆ more) : cell.Inside first lower higher more := by
  rcases inside with within | ⟨area, listed, within⟩
  · exact .inl (within.mono below above)
  · exact .inr ⟨area, among listed, within⟩

/-- Cells between successive positions are apart. -/
theorem apart_of_order {cell other : Cell} {first : Word} {low middle high size : Nat}
    (proper : cell.Proper) (properOther : other.Proper) (before : cell.Within first low middle)
    (behind : other.Within first middle high) (fits : high ≤ 32 * size)
    (small : size ≤ 2 ^ 256) : cell.Apart other := by
  obtain ⟨i, slot, -, stop⟩ := before
  obtain ⟨j, slotOther, start, stopOther⟩ := behind
  have positive := proper.positive
  have positiveOther := properOther.positive
  by_cases same : cell.slot = other.slot
  · rw [slot, slotOther] at same
    have equal := add_ofNat_inj first i j (by omega) (by omega) same
    exact .inr (.inl (by omega))
  · exact .inl same

theorem apart_of_areas {cell other : Cell} (area area' : Area) (apart : area.Apart area')
    (proper : cell.Proper) (properOther : other.Proper) (within : cell.InArea area)
    (withinOther : other.InArea area') : cell.Apart other := by
  obtain ⟨i, slot, -, stop⟩ := within
  obtain ⟨j, slotOther, -, stopOther⟩ := withinOther
  have positive := proper.positive
  have positiveOther := properOther.positive
  apply Or.inl
  rw [slot, slotOther]
  exact apart i (by omega) j (by omega)

/-- Cells of successive values are apart, wherever they are. -/
theorem apart_of_inside {cell other : Cell} {first : Word} {low middle high size : Nat}
    {areas areas' : List Area} (proper : cell.Proper) (properOther : other.Proper)
    (before : cell.Inside first low middle areas) (behind : other.Inside first middle high areas')
    (ordered : middle ≤ high) (fits : high ≤ 32 * size)
    (disjoint : Area.Disjoint (⟨first, size⟩ :: (areas ++ areas'))) : cell.Apart other := by
  obtain ⟨fromFirst, fromAreas⟩ := List.pairwise_cons.mp disjoint.apart
  rcases before with within | ⟨area, listed, within⟩ <;>
    rcases behind with withinOther | ⟨area', listed', withinOther⟩
  · exact apart_of_order proper properOther within withinOther fits
      (disjoint.small ⟨first, size⟩ List.mem_cons_self)
  · apply apart_of_areas ⟨first, size⟩ area' (fromFirst area' _) proper properOther _ withinOther
    · exact List.mem_append_right areas listed'
    · exact within.mono (Nat.zero_le low) (Nat.le_trans ordered fits)
  · apply Apart.symm
    apply apart_of_areas ⟨first, size⟩ area (fromFirst area _) properOther proper _ within
    · exact List.mem_append_left areas' listed
    · exact withinOther.mono (Nat.zero_le middle) fits
  · have apart := (List.pairwise_append.mp fromAreas).2.2 area listed area' listed'
    exact apart_of_areas area area' apart proper properOther within withinOther

end Cell

/-! ### Cells that are put down in order -/

/-- Cells that are put down between two positions, counted in bytes from a slot on, and in areas of
their own. -/
structure Laid (first : Word) (low high : Nat) (cells : List Cell) (areas : List Area) : Prop where
  ordered : low ≤ high
  proper : ∀ cell ∈ cells, cell.Proper
  inside : ∀ cell ∈ cells, cell.Inside first low high areas
  apart : ∀ size, high ≤ 32 * size → Area.Disjoint (⟨first, size⟩ :: areas) →
    cells.Pairwise Cell.Apart

namespace Laid

variable {first : Word} {low middle high : Nat} {cells others : List Cell}
  {areas more : List Area}

theorem nil (ordered : low ≤ high) : Laid first low high [] [] :=
  ⟨ordered, fun _ within => absurd within List.not_mem_nil,
    fun _ within => absurd within List.not_mem_nil, fun _ _ _ => .nil⟩

theorem single (cell : Cell) (proper : cell.Proper) (slot : cell.slot = first) :
    Laid first cell.offset (cell.offset + cell.width) [cell] [] := by
  refine ⟨Nat.le_add_right _ _, fun other within => ?_, fun other within => ?_,
    fun _ _ _ => List.pairwise_singleton _ cell⟩
  · rwa [List.mem_singleton.mp within]
  · rw [List.mem_singleton.mp within]
    exact .inl ⟨0, by rw [slot, BitVec.add_zero], by omega, by omega⟩

/-- A number that takes a whole slot. -/
theorem word (slot : Word) (number : Nat) (small : number < 256 ^ 32) :
    Laid slot 0 32 [⟨slot, 0, 32, number⟩] [] :=
  single ⟨slot, 0, 32, number⟩ ⟨show 0 < 32 by decide, show 0 + 32 ≤ 32 by decide, small⟩ rfl

theorem mono {lower higher : Nat} (laid : Laid first low high cells areas) (below : lower ≤ low)
    (above : high ≤ higher) : Laid first lower higher cells areas where
  ordered := Nat.le_trans below (Nat.le_trans laid.ordered above)
  proper := laid.proper
  inside cell within := (laid.inside cell within).mono below above (List.Subset.refl areas)
  apart size fits disjoint := laid.apart size (Nat.le_trans above fits) disjoint

/-- Cells that are put down behind others. -/
theorem append (laid : Laid first low middle cells areas)
    (laidOthers : Laid first middle high others more) :
    Laid first low high (cells ++ others) (areas ++ more) where
  ordered := Nat.le_trans laid.ordered laidOthers.ordered
  proper cell within := (List.mem_append.mp within).elim (laid.proper cell) (laidOthers.proper cell)
  inside cell within := by
    rcases List.mem_append.mp within with within | within
    · exact (laid.inside cell within).mono (Nat.le_refl low) laidOthers.ordered
        (List.subset_append_left areas more)
    · exact (laidOthers.inside cell within).mono laid.ordered (Nat.le_refl high)
        (List.subset_append_right areas more)
  apart size fits disjoint := by
    have whole : first = first + BitVec.ofNat 256 0 := (BitVec.add_zero first).symm
    have ordered := laidOthers.ordered
    apply List.pairwise_append.mpr
    refine ⟨?_, ?_, fun cell within other withinOther => ?_⟩
    · apply laid.apart size (by omega)
      rw [whole]
      exact disjoint.part 0 size (by omega) (List.sublist_append_left areas more)
    · apply laidOthers.apart size fits
      rw [whole]
      exact disjoint.part 0 size (by omega) (List.sublist_append_right areas more)
    · exact Cell.apart_of_inside (laid.proper cell within) (laidOthers.proper other withinOther)
        (laid.inside cell within) (laidOthers.inside other withinOther) ordered fits disjoint

/-- Cells that are put down from a later slot on. -/
theorem shift {skipped : Nat}
    (laid : Laid (first + BitVec.ofNat 256 skipped) low high cells areas) :
    Laid first (32 * skipped + low) (32 * skipped + high) cells areas where
  ordered := Nat.add_le_add_left laid.ordered _
  proper := laid.proper
  inside cell within := by
    rcases laid.inside cell within with within | elsewhere
    · exact .inl within.shift
    · exact .inr elsewhere
  apart size fits disjoint := by
    apply laid.apart (size - skipped) (by omega)
    exact disjoint.part skipped (size - skipped) (by omega) (List.Sublist.refl areas)

/-- Cells in an area of their own. -/
theorem elsewhere {data : Word} {size : Nat} (laid : Laid data 0 (32 * size) cells areas)
    (first : Word) (position : Nat) :
    Laid first position position cells (⟨data, size⟩ :: areas) where
  ordered := Nat.le_refl position
  proper := laid.proper
  inside cell within := by
    rcases laid.inside cell within with within | ⟨area, listed, within⟩
    · exact .inr ⟨⟨data, size⟩, List.mem_cons_self, within⟩
    · exact .inr ⟨area, List.mem_cons_of_mem _ listed, within⟩
  apart _ _ disjoint := laid.apart size (Nat.le_refl _) disjoint.tail

end Laid

/-! ### Numbers -/

theorem Elementary.number_lt (type : Elementary) (value : Value) (has : type.Has value)
    (fits : type.Fits) : number value type.width < 256 ^ type.width := by
  have positive : 0 < 256 ^ type.width := Nat.pow_pos (by decide)
  cases type <;> cases value <;> try exact has.elim
  case bool.bool value => cases value <;> decide
  case uint.uint width value => exact has
  case int.int width value =>
    show (value % (256 ^ width : Nat)).toNat < 256 ^ width
    have positive : 0 < 256 ^ width := positive
    omega
  case address.address value => exact value.isLt
  case fixedBytes.fixedBytes width data =>
    have length : data.length = width := has
    show ofBigEndian data < 256 ^ width
    rw [← length]
    exact ofBigEndian_lt data
  case bytes.bytes => exact positive
  case string.string => exact positive

theorem Ty.enumWidthFrom_count (count steps width : Nat) (fits : count ≤ 256 ^ (width + steps)) :
    count ≤ 256 ^ enumWidthFrom count steps width := by
  induction steps generalizing width with
  | zero => exact fits
  | succ steps ih =>
      rw [enumWidthFrom]
      split
      · apply ih
        rwa [Nat.add_assoc, Nat.add_comm 1]
      · next enough => exact Nat.le_trans (Nat.le_of_not_lt enough) (shift_le_pow width)

/-! ### Byte strings -/

theorem chunks_laid (data : List UInt8) (first : Word) (count : Nat) :
    Laid first 0 (32 * count) ((List.range count).map fun i =>
      ⟨first + BitVec.ofNat 256 i, 0, 32, ofBigEndian (chunk data i)⟩) [] := by
  induction count with
  | zero => exact Laid.nil (Nat.le_refl 0)
  | succ count ih =>
      have small : ofBigEndian (chunk data count) < 256 ^ 32 := by
        rw [← chunk_length data count]
        exact ofBigEndian_lt _
      have last := (Laid.word (first + BitVec.ofNat 256 count) _ small).shift
      rw [List.range_succ, List.map_append]
      exact ih.append last

theorem bytes_laid (data : List UInt8) (slot : Word) (small : data.length ≤ Decode.maxLength) :
    Laid slot 0 32 (Encoding.ofBytes data slot) (areaOfBytes data slot) := by
  unfold Encoding.ofBytes areaOfBytes
  by_cases short : data.length ≤ 31
  · have number : ofBigEndian (shortBytes data) < 256 ^ 32 := by
      rw [← shortBytes_length data short]
      exact ofBigEndian_lt _
    rw [if_pos short, if_pos short]
    exact Laid.word slot _ number
  · have number : 2 * data.length + 1 < 256 ^ 32 := by
      have largest : 2 * Decode.maxLength + 1 < 256 ^ 32 := by decide
      omega
    have length := Laid.word slot _ number
    have rest := chunks_laid data (Decode.dataSlot slot) (chunks data)
    rw [if_neg short, if_neg short]
    exact length.append (rest.elsewhere slot 32)

/-! ### Values of any type -/

/-- The values of a type are put down at any place that is one for the type. -/
def LaidAll (type : Ty) : Prop :=
  ∀ value slot offset, type.Has value → type.Fits value → offset + type.bytes ≤ 32 →
    (type.isReference → offset = 0) →
    Laid slot offset (offset + type.extent) (cells type value slot offset)
      (Encoding.areas type value slot)

theorem elementary_laid (name : String) : LaidAll (.elementary name) := by
  intro value slot offset has _ room aligned
  obtain ⟨type, found, has⟩ := has
  have bounds := Elementary.fits_of_ofName? name type found
  have width := Ty.bytes_elementary name type found
  simp only [cells, Encoding.areas, found]
  by_cases reference : (Ty.elementary name).isReference
  · have extent : (Ty.elementary name).extent = 32 := by
      simp only [Ty.extent, reference, Ty.slots, if_true]
    rw [aligned reference, extent]
    cases type <;> simp [Ty.isReference, found] at reference <;> cases value <;>
      try exact has.elim
    case bytes.bytes data _ => exact bytes_laid data slot has
    case string.string text _ => exact bytes_laid (Text.utf8 text) slot has
  · have extent : (Ty.elementary name).extent = type.width := by
      simp only [Ty.extent, reference, width, Bool.false_eq_true, if_false]
    have packed : Laid slot offset (offset + type.width)
        [⟨slot, offset, type.width, number value type.width⟩] [] :=
      Laid.single ⟨slot, offset, type.width, _⟩
        ⟨bounds.1, show offset + type.width ≤ 32 by omega, type.number_lt value has bounds⟩ rfl
    rw [extent]
    cases type <;> simp [Ty.isReference, found] at reference <;> exact packed

/-- The elements of an array are put down between the cursors before and after them. -/
theorem elements_laid (base : Ty) (first : Word) (items : List Value) (i : Nat)
    (each : LaidAll base) (has : ∀ item ∈ items, base.Has item)
    (fits : ∀ item ∈ items, base.Fits item) (start : (Cursor.afterElements base i).offset ≤ 32) :
    Laid first (Cursor.afterElements base i).position
      (Cursor.afterElements base (i + items.length)).position
      (ofElements base (cells base) first i items)
      (areasOfElements base (Encoding.areas base) first i items) := by
  induction items generalizing i with
  | nil => exact Laid.nil (Nat.le_refl _)
  | cons item items ih =>
      have room := Cursor.place_offset (Cursor.afterElements base i) base
      have order := Cursor.place_position (Cursor.afterElements base i) base start
      rw [Cursor.place_afterElements] at room order
      have value := each item (first + BitVec.ofNat 256 (base.elementPlace i).slot) _
        (has item List.mem_cons_self) (fits item List.mem_cons_self) room.1 room.2
      have rest := ih (i + 1) (fun other within => has other (List.mem_cons_of_mem item within))
        (fun other within => fits other (List.mem_cons_of_mem item within))
        (Cursor.place_next_offset _ base)
      rw [List.length_cons, show i + (items.length + 1) = i + 1 + items.length by omega]
      have placed := value.shift.mono order.1 (Nat.le_refl _)
      rw [← Nat.add_assoc] at placed
      exact (placed.mono (Nat.le_refl _) order.2).append rest

/-- The members of a struct are put down between the cursors before and after them. -/
theorem members_laid (first : Word) (members : List Variable) (fields : List (String × Value))
    (cursor : Cursor) (each : ∀ member ∈ members, LaidAll member.type)
    (has : Ty.MembersHave members fields) (fits : Ty.MembersFit members fields)
    (start : cursor.offset ≤ 32) :
    Laid first cursor.position (Ty.endOf members cursor).position
      (memberCells members fields first cursor) (memberAreas members fields first cursor) ∧
      (Ty.endOf members cursor).offset ≤ 32 := by
  induction members generalizing fields cursor with
  | nil => exact ⟨Laid.nil (Nat.le_refl _), start⟩
  | cons member members ih =>
      obtain ⟨id, name, location, type, scope, state, mutability, literal⟩ := member
      cases fields with
      | nil => exact has.elim
      | cons field fields =>
          obtain ⟨rfl, rfl, hasValue, hasRest⟩ := has
          obtain ⟨fitsValue, fitsRest⟩ := fits
          have room := Cursor.place_offset cursor type
          have order := Cursor.place_position cursor type start
          have value := each _ List.mem_cons_self field.2
            (first + BitVec.ofNat 256 (cursor.place type).1.slot) _ hasValue fitsValue room.1 room.2
          obtain ⟨rest, stop⟩ := ih fields (cursor.place type).2
            (fun other within => each other (List.mem_cons_of_mem _ within)) hasRest fitsRest
            (Cursor.place_next_offset cursor type)
          have placed := value.shift.mono order.1 (Nat.le_refl _)
          rw [← Nat.add_assoc] at placed
          exact ⟨(placed.mono (Nat.le_refl _) order.2).append rest, stop⟩

namespace Cursor

theorem position_le_slots (cursor : Cursor) (inside : cursor.offset ≤ 32) :
    cursor.position ≤ 32 * cursor.slots := by
  simp only [position, slots]
  split <;> omega

/-- The elements of an array end in the last slot of the array. -/
theorem afterElements_slots (base : Ty) (count : Nat)
    (fits : base.isReference → count * base.slots ≤ Ty.maxSlots) :
    (afterElements base count).slots = (Ty.array base (some count)).slots := by
  have bounds := base.bytes_bounds
  have room : 0 < 32 / base.bytes := Nat.div_pos bounds.2 bounds.1
  cases count with
  | zero =>
      cases reference : base.isReference with
      | true => simp [afterElements, start, slots, Ty.slots, reference]
      | false =>
          have none : (32 / base.bytes - 1) / (32 / base.bytes) = 0 :=
            Nat.div_eq_of_lt (by omega)
          simp [afterElements, start, slots, Ty.slots, reference, Nat.max_eq_right bounds.1, none]
  | succ i =>
      have place := place_afterElements base i
      simp only [Cursor.place] at place
      simp only [afterElements, Cursor.place, place]
      cases reference : base.isReference with
      | true =>
          have told := Nat.min_eq_left (fits reference)
          rw [Nat.succ_mul] at told
          simp [Ty.slots, Ty.elementPlace, advance, slots, reference, Nat.succ_mul, told]
      | false =>
          have one := base.slots_of_value reference
          have count : i + 1 + 32 / base.bytes - 1 = i + 32 / base.bytes := by omega
          have behind : 0 < i % (32 / base.bytes) * base.bytes + base.bytes := by omega
          simp only [Ty.slots, Ty.elementPlace, advance, slots, reference, one,
            Nat.max_eq_right bounds.1, count, Nat.add_div_right i room]
          simp only [Nat.lt_irrefl, Bool.false_eq_true, or_self, if_false, if_pos behind]

theorem afterElements_offset (base : Ty) (count : Nat) :
    (afterElements base count).offset ≤ 32 := by
  cases count with
  | zero => exact Nat.zero_le 32
  | succ count => exact place_next_offset (afterElements base count) base

/-- The elements of an array end before the slots of the array do. -/
theorem afterElements_position (base : Ty) (count : Nat)
    (fits : base.isReference → count * base.slots ≤ Ty.maxSlots) :
    (afterElements base count).position ≤ 32 * (Ty.array base (some count)).slots := by
  have end_le := position_le_slots _ (afterElements_offset base count)
  rwa [afterElements_slots base count fits] at end_le

end Cursor

theorem enum_laid (name : String) (values : List String) : LaidAll (.enum name values) := by
  intro value slot offset has fits room aligned
  cases value <;> try exact has.elim
  case enum member =>
    have bounds := Ty.enumWidth_bounds values.length
    have index : values.idxOf member < values.length := List.idxOf_lt_length_iff.mpr has
    have small := Nat.lt_of_lt_of_le index (Ty.enumWidthFrom_count values.length 31 1 fits)
    exact Laid.single ⟨slot, offset, Ty.enumWidth values.length, values.idxOf member⟩
      ⟨bounds.1, room, small⟩ rfl

/-- The elements of an array are put down in the slots of an array of their number. -/
theorem array_laid (base : Ty) (first : Word) (items : List Value) (each : LaidAll base)
    (has : ∀ item ∈ items, base.Has item)
    (fits : base.isReference → items.length * base.slots ≤ Ty.maxSlots)
    (fitsItems : ∀ item ∈ items, base.Fits item) :
    Laid first 0 (32 * (Ty.array base (some items.length)).slots)
      (ofElements base (cells base) first 0 items)
      (areasOfElements base (Encoding.areas base) first 0 items) := by
  have laid := elements_laid base first items 0 each has fitsItems (Nat.zero_le 32)
  rw [Nat.zero_add] at laid
  exact laid.mono (Nat.le_refl 0) (Cursor.afterElements_position base items.length fits)

/-- The values of every type are put down at their places. -/
theorem laidAll (type : Ty) : LaidAll type := by
  induction type using Ty.induction with
  | elementary name => exact elementary_laid name
  | mapping key value => exact fun _ _ _ has => has.elim
  | enum name values => exact enum_laid name values
  | struct name members each =>
      intro value slot offset has fits room aligned
      cases value <;> try exact has.elim
      case struct fields =>
        obtain ⟨laid, stop⟩ :=
          members_laid slot members fields .start each has fits (Nat.zero_le 32)
        have position := Cursor.position_le_slots _ stop
        rw [aligned rfl]
        apply laid.mono (Nat.le_refl 0)
        show _ ≤ 0 + 32 * max 1 (Ty.endOf members .start).slots
        omega
  | array base length each =>
      intro value slot offset has fits room aligned
      cases value <;> cases length <;> try exact has.elim
      case array.some items length =>
        obtain ⟨rfl, has⟩ := has
        rw [aligned rfl, Nat.zero_add]
        exact array_laid base slot items each has fits.1 fits.2
      case array.none items =>
        have count : items.length < 256 ^ 32 := by
          have small : items.length ≤ Decode.maxLength := has.1
          have largest : Decode.maxLength < 256 ^ 32 := by decide
          omega
        have laid := array_laid base (Decode.dataSlot slot) items each has.2 fits.1 fits.2
        rw [aligned rfl]
        exact (Laid.word slot items.length count).append (laid.elsewhere slot 32)

end SolTrace
