/-!
The instructions of a code. The code is scanned from its start; the bytes of a push operand are
passed over, so an instruction starts at every byte that is in no operand.
-/
set_option autoImplicit false

namespace SolTrace

/-- The names of 16 opcodes that share their high digit, an empty text for an undefined one. -/
def mnemonicRow : Nat → List String
  | 0x0 => ["STOP", "ADD", "MUL", "SUB", "DIV", "SDIV", "MOD", "SMOD", "ADDMOD", "MULMOD", "EXP",
      "SIGNEXTEND"]
  | 0x1 => ["LT", "GT", "SLT", "SGT", "EQ", "ISZERO", "AND", "OR", "XOR", "NOT", "BYTE", "SHL",
      "SHR", "SAR"]
  | 0x2 => ["KECCAK256"]
  | 0x3 => ["ADDRESS", "BALANCE", "ORIGIN", "CALLER", "CALLVALUE", "CALLDATALOAD", "CALLDATASIZE",
      "CALLDATACOPY", "CODESIZE", "CODECOPY", "GASPRICE", "EXTCODESIZE", "EXTCODECOPY",
      "RETURNDATASIZE", "RETURNDATACOPY", "EXTCODEHASH"]
  | 0x4 => ["BLOCKHASH", "COINBASE", "TIMESTAMP", "NUMBER", "DIFFICULTY", "GASLIMIT", "CHAINID",
      "SELFBALANCE", "BASEFEE", "BLOBHASH", "BLOBBASEFEE"]
  | 0x5 => ["POP", "MLOAD", "MSTORE", "MSTORE8", "SLOAD", "SSTORE", "JUMP", "JUMPI", "PC",
      "MSIZE", "GAS", "JUMPDEST", "TLOAD", "TSTORE", "MCOPY", "PUSH0"]
  | 0x6 => (List.range 16).map fun i => "PUSH" ++ toString (i + 1)
  | 0x7 => (List.range 16).map fun i => "PUSH" ++ toString (i + 17)
  | 0x8 => (List.range 16).map fun i => "DUP" ++ toString (i + 1)
  | 0x9 => (List.range 16).map fun i => "SWAP" ++ toString (i + 1)
  | 0xA => ["LOG0", "LOG1", "LOG2", "LOG3", "LOG4"]
  | 0xD => ["DATALOAD", "DATALOADN", "DATASIZE", "DATACOPY"]
  | 0xE => ["RJUMP", "RJUMPI", "RJUMPV", "CALLF", "RETF", "JUMPF", "DUPN", "SWAPN", "EXCHANGE", "",
      "", "", "EOFCREATE", "", "RETURNCONTRACT", ""]
  | 0xF => ["CREATE", "CALL", "CALLCODE", "RETURN", "DELEGATECALL", "CREATE2", "",
      "RETURNDATALOAD", "EXTCALL", "EXTDELEGATECALL", "STATICCALL", "EXTSTATICCALL", "", "REVERT",
      "INVALID", "SELFDESTRUCT"]
  | _ => []

def mnemonic? (opcode : UInt8) : Option String :=
  (mnemonicRow (opcode.toNat / 16))[opcode.toNat % 16]?.filter fun name => !name.isEmpty

/-- How many bytes after the opcode belong to it. -/
def operandSize (opcode : UInt8) : Nat :=
  if 0x60 ≤ opcode ∧ opcode ≤ 0x7F then opcode.toNat - 0x5F else 0

/-- The pushes have operands of 1 to 32 bytes, in the order of their opcodes. -/
theorem operandSize_push (n : Nat) (few : n < 32) :
    operandSize (UInt8.ofNat (0x60 + n)) = n + 1 := by
  have number : (UInt8.ofNat (0x60 + n)).toNat = 0x60 + n := by
    rw [UInt8.toNat_ofNat']
    omega
  have push : 0x60 ≤ UInt8.ofNat (0x60 + n) ∧ UInt8.ofNat (0x60 + n) ≤ 0x7F := by
    rw [UInt8.le_iff_toNat_le, UInt8.le_iff_toNat_le, number]
    constructor
    · exact Nat.le_add_right 0x60 n
    · show 0x60 + n ≤ 0x7F
      omega
  rw [operandSize, if_pos push, number]
  omega

structure Instruction where
  /-- The position of the opcode in the code. -/
  pc : Nat
  /-- How many instructions stand before this one. -/
  index : Nat
  opcode : UInt8
deriving Repr, DecidableEq

namespace Instruction

def mnemonic? (instruction : Instruction) : Option String :=
  SolTrace.mnemonic? instruction.opcode

/-- Scans code that starts at `pc`, of which `skip` bytes still belong to an operand. -/
def scanFrom : Nat → Nat → Nat → List UInt8 → List Instruction
  | _, _, _, [] => []
  | pc, index, 0, opcode :: code =>
      ⟨pc, index, opcode⟩ :: scanFrom (pc + 1) (index + 1) (operandSize opcode) code
  | pc, index, skip + 1, _ :: code => scanFrom (pc + 1) index skip code

/-- The instructions of a code, in order. -/
def scan (code : List UInt8) : List Instruction :=
  scanFrom 0 0 0 code

end Instruction

end SolTrace
