import SolTrace.Instruction
/-!
The scan of a code against where its instructions start: the first one at the start of the code,
each other one behind the operand of the one before. The instruction with an index in the scan is
the one that starts there.
-/
set_option autoImplicit false

namespace SolTrace

namespace Instruction

/-- `Starts code index pc`: that many instructions are before `pc`, and `pc` is in none of them. -/
inductive Starts (code : List UInt8) : Nat → Nat → Prop
  | first : Starts code 0 0
  | next {index pc : Nat} {opcode : UInt8} : Starts code index pc → code[pc]? = some opcode →
      Starts code (index + 1) (pc + 1 + operandSize opcode)

theorem Starts.unique {code : List UInt8} {index pc other : Nat} (starts : Starts code index pc)
    (otherwise : Starts code index other) : pc = other := by
  induction starts generalizing other with
  | first => cases otherwise; rfl
  | next _ found ih =>
      cases otherwise with
      | next before foundThere =>
          cases ih before
          rw [found] at foundThere
          cases foundThere
          rfl

theorem scanFrom_skip (pc index skip : Nat) (code : List UInt8) :
    scanFrom pc index skip code = scanFrom (pc + skip) index 0 (code.drop skip) := by
  induction skip generalizing pc code with
  | zero => rfl
  | succ skip ih =>
      cases code with
      | nil => rfl
      | cons byte code =>
          rw [scanFrom, ih, List.drop_succ_cons]
          have step : pc + 1 + skip = pc + (skip + 1) := by omega
          rw [step]

/-- A scan at an opcode reads it and goes on behind its operand. -/
theorem scanFrom_drop {code : List UInt8} {pc : Nat} {opcode : UInt8} (index : Nat)
    (found : code[pc]? = some opcode) :
    scanFrom pc index 0 (code.drop pc) = ⟨pc, index, opcode⟩ ::
      scanFrom (pc + 1 + operandSize opcode) (index + 1) 0
        (code.drop (pc + 1 + operandSize opcode)) := by
  obtain ⟨inside, here⟩ := List.getElem?_eq_some_iff.mp found
  rw [List.drop_eq_getElem_cons inside, here, scanFrom, scanFrom_skip, List.drop_drop]

theorem scanFrom_end {code : List UInt8} {pc : Nat} (index : Nat) (found : code[pc]? = none) :
    scanFrom pc index 0 (code.drop pc) = [] := by
  rw [List.drop_eq_nil_of_le (List.getElem?_eq_none_iff.mp found)]
  rfl

/-- What is left of the scan at the start of an instruction is the scan from there. -/
theorem Starts.drop_scan {code : List UInt8} {index pc : Nat} (starts : Starts code index pc) :
    (scan code).drop index = scanFrom pc index 0 (code.drop pc) := by
  induction starts with
  | first => rfl
  | next _ found ih => rw [← List.drop_drop, ih, scanFrom_drop _ found]; rfl

theorem Starts.getElem?_scan {code : List UInt8} {index pc : Nat}
    (starts : Starts code index pc) :
    (scan code)[index]? = code[pc]?.map fun opcode => ⟨pc, index, opcode⟩ := by
  rw [← Nat.add_zero index, ← List.getElem?_drop, starts.drop_scan]
  cases found : code[pc]? with
  | none => rw [scanFrom_end index found]; rfl
  | some opcode => rw [scanFrom_drop index found]; rfl

theorem exists_starts {code : List UInt8} {index : Nat} (inside : index < (scan code).length) :
    ∃ pc, Starts code index pc := by
  induction index with
  | zero => exact ⟨0, .first⟩
  | succ index ih =>
      have before := Nat.lt_of_succ_lt inside
      obtain ⟨pc, starts⟩ := ih before
      have found := starts.getElem?_scan
      rw [List.getElem?_eq_getElem before, eq_comm, Option.map_eq_some_iff] at found
      obtain ⟨opcode, found, -⟩ := found
      exact ⟨_, starts.next found⟩

/-- The instruction with an index in the scan is the one that starts behind that many others. -/
theorem getElem?_scan {code : List UInt8} {index : Nat} {instruction : Instruction} :
    (scan code)[index]? = some instruction ↔
      instruction.index = index ∧ Starts code index instruction.pc ∧
        code[instruction.pc]? = some instruction.opcode := by
  constructor
  · intro scanned
    obtain ⟨pc, starts⟩ := exists_starts (List.getElem?_eq_some_iff.mp scanned).1
    rw [starts.getElem?_scan, Option.map_eq_some_iff] at scanned
    obtain ⟨opcode, found, rfl⟩ := scanned
    exact ⟨rfl, starts, found⟩
  · rintro ⟨rfl, starts, found⟩
    rw [starts.getElem?_scan, found]
    rfl

/-- Later instructions start later. -/
theorem Starts.lt {code : List UInt8} {index other pc later : Nat} (starts : Starts code index pc)
    (startsThen : Starts code other later) (before : index < other) : pc < later := by
  induction startsThen with
  | first => cases before
  | @next middle position opcode between _ ih =>
      rcases Nat.lt_succ_iff_lt_or_eq.mp before with earlier | rfl
      · have := ih earlier
        omega
      · have same := starts.unique between
        omega

end Instruction

end SolTrace
