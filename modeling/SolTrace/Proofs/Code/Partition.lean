import Mathlib.Logic.ExistsUnique
import Mathlib.Tactic.ByContra
import SolTrace.Proofs.Code.Instructions
/-!
The scan of a code as a partition of its bytes: each byte is an opcode that an instruction starts
with, or belongs to the operand of a single push. What is appended to a code does not change the
instructions before it.
-/
set_option autoImplicit false

namespace SolTrace

namespace Instruction

/-- The opcodes that have an operand. -/
def IsPush (opcode : UInt8) : Prop :=
  0x60 ≤ opcode ∧ opcode ≤ 0x7F

theorem isPush_of_operandSize {opcode : UInt8} (positive : 0 < operandSize opcode) :
    IsPush opcode := by
  unfold operandSize at positive
  split at positive
  · assumption
  · exact absurd positive (Nat.lt_irrefl 0)

/-- Whether a byte of the code belongs to the operand of an instruction. -/
structure InOperand (instruction : Instruction) (position : Nat) : Prop where
  behind : instruction.pc < position
  within : position ≤ instruction.pc + operandSize instruction.opcode

theorem InOperand.isPush {instruction : Instruction} {position : Nat}
    (inside : instruction.InOperand position) : IsPush instruction.opcode := by
  apply isPush_of_operandSize
  have := inside.behind
  have := inside.within
  omega

/-! ### Where instructions start -/

/-- The first of two instructions ends before the second one starts. -/
theorem Starts.next_le {code : List UInt8} {index other pc later : Nat} {opcode : UInt8}
    (starts : Starts code index pc) (found : code[pc]? = some opcode)
    (startsThen : Starts code other later) (before : index < other) :
    pc + 1 + operandSize opcode ≤ later := by
  induction startsThen with
  | first => cases before
  | next between foundThere ih =>
      rcases Nat.lt_succ_iff_lt_or_eq.mp before with earlier | rfl
      · have := ih earlier
        omega
      · cases starts.unique between
        rw [found] at foundThere
        cases foundThere
        exact Nat.le_refl _

/-- Every byte is the opcode of an instruction or in the operand of one. -/
theorem exists_starts_le {code : List UInt8} {position : Nat} (inside : position < code.length) :
    ∃ index pc opcode, Starts code index pc ∧ code[pc]? = some opcode ∧ pc ≤ position ∧
      position ≤ pc + operandSize opcode := by
  induction position with
  | zero =>
      exact ⟨0, 0, code[0], .first, List.getElem?_eq_getElem inside, Nat.le_refl 0, Nat.zero_le _⟩
  | succ position ih =>
      obtain ⟨index, pc, opcode, starts, found, before, within⟩ := ih (Nat.lt_of_succ_lt inside)
      by_cases last : position = pc + operandSize opcode
      · -- The byte before ends its instruction, so the next one starts here.
        have next := starts.next found
        rw [show pc + 1 + operandSize opcode = position + 1 by omega] at next
        exact ⟨index + 1, position + 1, code[position + 1], next, List.getElem?_eq_getElem inside,
          Nat.le_refl _, Nat.le_add_right _ _⟩
      · exact ⟨index, pc, opcode, starts, found, by omega, by omega⟩

theorem mem_scan {code : List UInt8} {instruction : Instruction} :
    instruction ∈ scan code ↔ Starts code instruction.index instruction.pc ∧
      code[instruction.pc]? = some instruction.opcode := by
  rw [List.mem_iff_getElem?]
  constructor
  · rintro ⟨index, scanned⟩
    obtain ⟨rfl, starts, found⟩ := getElem?_scan.mp scanned
    exact ⟨starts, found⟩
  · rintro ⟨starts, found⟩
    exact ⟨instruction.index, getElem?_scan.mpr ⟨rfl, starts, found⟩⟩

theorem pc_lt_of_mem_scan {code : List UInt8} {instruction : Instruction}
    (scanned : instruction ∈ scan code) : instruction.pc < code.length :=
  (List.getElem?_eq_some_iff.mp (mem_scan.mp scanned).2).1

/-- No byte belongs to two instructions. -/
theorem eq_of_mem_scan {code : List UInt8} {instruction other : Instruction} {position : Nat}
    (scanned : instruction ∈ scan code) (otherScanned : other ∈ scan code)
    (before : instruction.pc ≤ position)
    (within : position ≤ instruction.pc + operandSize instruction.opcode)
    (otherBefore : other.pc ≤ position)
    (otherWithin : position ≤ other.pc + operandSize other.opcode) : instruction = other := by
  obtain ⟨starts, found⟩ := mem_scan.mp scanned
  obtain ⟨otherStarts, otherFound⟩ := mem_scan.mp otherScanned
  have index : instruction.index = other.index := by
    rcases Nat.lt_trichotomy instruction.index other.index with earlier | same | later
    · have := starts.next_le found otherStarts earlier
      omega
    · exact same
    · have := otherStarts.next_le otherFound starts later
      omega
  have first := getElem?_scan.mpr ⟨rfl, starts, found⟩
  rw [index, getElem?_scan.mpr ⟨rfl, otherStarts, otherFound⟩] at first
  exact (Option.some.inj first).symm

/-! ### Appended bytes -/

theorem le_pc_of_mem_scanFrom {pc index skip : Nat} {code : List UInt8} {instruction : Instruction}
    (scanned : instruction ∈ scanFrom pc index skip code) : pc ≤ instruction.pc := by
  induction code generalizing pc index skip with
  | nil => cases scanned
  | cons byte code ih =>
      cases skip with
      | zero =>
          rw [scanFrom] at scanned
          rcases List.mem_cons.mp scanned with rfl | later
          · exact Nat.le_refl _
          · exact Nat.le_of_succ_le (ih later)
      | succ skip =>
          rw [scanFrom] at scanned
          exact Nat.le_of_succ_le (ih scanned)

/-- The bytes behind a code add instructions behind it and change none in it. -/
theorem scanFrom_append (pc index skip : Nat) (code suffix : List UInt8) :
    (scanFrom pc index skip (code ++ suffix)).filter (fun instruction =>
      instruction.pc < pc + code.length) = scanFrom pc index skip code := by
  induction code generalizing pc index skip with
  | nil =>
      rw [scanFrom, List.filter_eq_nil_iff]
      intro instruction scanned
      have := le_pc_of_mem_scanFrom scanned
      simpa using this
  | cons byte code ih =>
      have length : pc + (byte :: code).length = pc + 1 + code.length := by
        rw [List.length_cons]
        omega
      rw [length]
      cases skip with
      | zero => rw [List.cons_append, scanFrom, scanFrom, List.filter_cons_of_pos (by simp; omega), ih]
      | succ skip => rw [List.cons_append, scanFrom, scanFrom, ih]

theorem scan_append (code suffix : List UInt8) :
    (scan (code ++ suffix)).filter (fun instruction => instruction.pc < code.length) =
      scan code := by
  have appended := scanFrom_append 0 0 0 code suffix
  rwa [Nat.zero_add] at appended

/-- No instruction comes after one whose operand the code ends in. -/
theorem index_le_of_truncated {code : List UInt8} {instruction other : Instruction}
    (scanned : instruction ∈ scan code)
    (truncated : code.length ≤ instruction.pc + 1 + operandSize instruction.opcode)
    (otherScanned : other ∈ scan code) : other.index ≤ instruction.index := by
  obtain ⟨starts, found⟩ := mem_scan.mp scanned
  by_contra later
  have behind := starts.next_le found (mem_scan.mp otherScanned).1 (Nat.not_le.mp later)
  have inside := pc_lt_of_mem_scan otherScanned
  omega

theorem getLast?_of_truncated {code : List UInt8} {instruction : Instruction}
    (scanned : instruction ∈ scan code)
    (truncated : code.length ≤ instruction.pc + 1 + operandSize instruction.opcode) :
    (scan code).getLast? = some instruction := by
  obtain ⟨starts, found⟩ := mem_scan.mp scanned
  have here := getElem?_scan.mpr ⟨rfl, starts, found⟩
  have inside := (List.getElem?_eq_some_iff.mp here).1
  have length : (scan code).length = instruction.index + 1 := by
    by_contra more
    have next : instruction.index + 1 < (scan code).length := by omega
    have index := (getElem?_scan.mp (List.getElem?_eq_getElem next)).1
    have bound := index_le_of_truncated scanned truncated (List.getElem_mem next)
    omega
  rw [List.getLast?_eq_getElem?, length]
  exact here

/-- A last operand that the code ends in makes no difference. -/
theorem scan_of_truncated {code : List UInt8} {instruction : Instruction}
    (scanned : instruction ∈ scan code)
    (truncated : code.length ≤ instruction.pc + 1 + operandSize instruction.opcode) :
    scan (code.take (instruction.pc + 1)) = scan code := by
  have inside := pc_lt_of_mem_scan scanned
  have appended := scan_append (code.take (instruction.pc + 1)) (code.drop (instruction.pc + 1))
  rw [List.take_append_drop, List.length_take, Nat.min_eq_left inside] at appended
  rw [← appended, List.filter_eq_self]
  intro other otherScanned
  obtain ⟨starts, -⟩ := mem_scan.mp scanned
  obtain ⟨otherStarts, -⟩ := mem_scan.mp otherScanned
  rw [decide_eq_true_iff]
  rcases Nat.eq_or_lt_of_le (index_le_of_truncated scanned truncated otherScanned) with
    same | before
  · rw [same] at otherStarts
    rw [otherStarts.unique starts]
    exact Nat.lt_succ_self _
  · exact Nat.lt_succ_of_lt (otherStarts.lt starts before)

/-! ### The partition -/

/-- A table of instructions that shares out the bytes of a code. -/
structure Partitions (code : List UInt8) (table : List Instruction) : Prop where
  increasing : (table.map Instruction.pc).Pairwise (· < ·)
  first : (table.map Instruction.pc).head? = if code.isEmpty then none else some 0
  next : ∀ (k : Nat) (instruction following : Instruction), table[k]? = some instruction →
    table[k + 1]? = some following →
      following.pc = instruction.pc + 1 + operandSize instruction.opcode
  index : ∀ (k : Nat) (instruction : Instruction), table[k]? = some instruction →
    instruction.index = k
  opcode : ∀ instruction ∈ table, code[instruction.pc]? = some instruction.opcode
  /-- A byte is the start of one instruction and in no operand, or the other way round. -/
  shared : ∀ position < code.length,
    ((∃! instruction, instruction ∈ table ∧ instruction.pc = position) ∧
      ∀ instruction ∈ table, ¬ instruction.InOperand position) ∨
    ((∀ instruction ∈ table, instruction.pc ≠ position) ∧
      ∃! instruction, instruction ∈ table ∧ IsPush instruction.opcode ∧
        instruction.InOperand position)
  /-- Nothing comes after an instruction whose operand the code ends in, and the bytes of that
  operand may as well be left out. -/
  truncated : ∀ instruction ∈ table,
    code.length ≤ instruction.pc + 1 + operandSize instruction.opcode →
      table.getLast? = some instruction ∧ scan (code.take (instruction.pc + 1)) = table

theorem scan_increasing (code : List UInt8) :
    ((scan code).map Instruction.pc).Pairwise (· < ·) := by
  rw [List.pairwise_map, List.pairwise_iff_getElem]
  intro i j inside otherInside before
  have scanned := getElem?_scan.mp (List.getElem?_eq_getElem inside)
  have otherScanned := getElem?_scan.mp (List.getElem?_eq_getElem otherInside)
  exact scanned.2.1.lt otherScanned.2.1 before

theorem scan_shared {code : List UInt8} {position : Nat} (inside : position < code.length) :
    ((∃! instruction, instruction ∈ scan code ∧ instruction.pc = position) ∧
      ∀ instruction ∈ scan code, ¬ instruction.InOperand position) ∨
    ((∀ instruction ∈ scan code, instruction.pc ≠ position) ∧
      ∃! instruction, instruction ∈ scan code ∧ IsPush instruction.opcode ∧
        instruction.InOperand position) := by
  obtain ⟨index, pc, opcode, starts, found, before, within⟩ := exists_starts_le inside
  have scanned : ⟨pc, index, opcode⟩ ∈ scan code := mem_scan.mpr ⟨starts, found⟩
  -- The instruction that the byte belongs to is the only one that it can start or be in.
  have unique (other : Instruction) (otherScanned : other ∈ scan code)
      (otherBefore : other.pc ≤ position)
      (otherWithin : position ≤ other.pc + operandSize other.opcode) :
      other = ⟨pc, index, opcode⟩ :=
    eq_of_mem_scan otherScanned scanned otherBefore otherWithin before within
  rcases Nat.eq_or_lt_of_le before with rfl | behind
  · refine .inl ⟨⟨_, ⟨scanned, rfl⟩, ?_⟩, ?_⟩
    · rintro other ⟨otherScanned, same⟩
      exact unique other otherScanned (by omega) (by omega)
    · intro other otherScanned operand
      have behind := operand.behind
      have same := unique other otherScanned (Nat.le_of_lt behind) operand.within
      rw [same] at behind
      exact Nat.lt_irrefl _ behind
  · have operand : InOperand ⟨pc, index, opcode⟩ position := ⟨behind, within⟩
    refine .inr ⟨?_, ⟨_, ⟨scanned, operand.isPush, operand⟩, ?_⟩⟩
    · intro other otherScanned same
      have equal := unique other otherScanned (by omega) (by omega)
      rw [equal] at same
      exact absurd same (Nat.ne_of_lt behind)
    · rintro other ⟨otherScanned, -, otherOperand⟩
      exact unique other otherScanned (Nat.le_of_lt otherOperand.behind) otherOperand.within

/-- The scan of a code shares out its bytes, and stays as it is whatever is appended to the code. -/
theorem scan_partitions (code suffix : List UInt8) :
    Partitions code (scan code) ∧
      (scan (code ++ suffix)).filter (fun instruction => instruction.pc < code.length) =
        scan code := by
  refine ⟨?_, scan_append code suffix⟩
  exact {
    increasing := scan_increasing code
    first := by
      cases code with
      | nil => rfl
      | cons byte code => rfl
    next := by
      intro k instruction following scanned scannedNext
      obtain ⟨-, starts, found⟩ := getElem?_scan.mp scanned
      obtain ⟨-, startsNext, -⟩ := getElem?_scan.mp scannedNext
      exact startsNext.unique (starts.next found)
    index := fun k instruction scanned => (getElem?_scan.mp scanned).1
    opcode := fun instruction scanned => (mem_scan.mp scanned).2
    shared := fun position inside => scan_shared inside
    truncated := fun instruction scanned truncated =>
      ⟨getLast?_of_truncated scanned truncated, scan_of_truncated scanned truncated⟩ }

/-- A push of three bytes, in which there seem to be a push and a jump destination, an addition, and
a push of 32 bytes, of which the code has two. -/
theorem scan_partitions_pushes :
    let code := [0x62, 0x60, 0x5B, 0x7F, 0x01, 0x7F, 0x5B, 0x60]
    scan code = [⟨0, 0, 0x62⟩, ⟨4, 1, 0x01⟩, ⟨5, 2, 0x7F⟩] ∧
      operandSize 0x62 = 3 ∧ operandSize 0x7F = 32 ∧ Partitions code (scan code) ∧
      (scan (code ++ [0x00])).filter (fun instruction => instruction.pc < code.length) =
        scan code := by
  intro code
  have table : scan code = [⟨0, 0, 0x62⟩, ⟨4, 1, 0x01⟩, ⟨5, 2, 0x7F⟩] := by decide
  exact ⟨table, operandSize_push 2 (by decide), operandSize_push 31 (by decide),
    scan_partitions code [0x00]⟩

end Instruction

end SolTrace
