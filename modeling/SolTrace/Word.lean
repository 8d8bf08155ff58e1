import SolTrace.Hex
/-!
The 256-bit words of the machine: big-endian bytes, hexadecimal text and its reading.
-/
set_option autoImplicit false

namespace SolTrace

/-- The last `width` bytes of a number, most significant first. -/
def bigEndian : Nat → Nat → List UInt8
  | 0, _ => []
  | width + 1, n => bigEndian width (n / 256) ++ [UInt8.ofNat n]

def ofBigEndian (bytes : List UInt8) : Nat :=
  bytes.foldl (fun n byte => n * 256 + byte.toNat) 0

@[simp]
theorem bigEndian_length (width n : Nat) : (bigEndian width n).length = width := by
  induction width generalizing n with
  | zero => rfl
  | succ width ih => simp [bigEndian, ih]

abbrev Word := BitVec 256

instance : Std.TransOrd Word := BitVec.instTransOrd

namespace Word

def bytes (word : Word) : List UInt8 :=
  bigEndian 32 word.toNat

@[simp]
theorem bytes_length (word : Word) : word.bytes.length = 32 := by
  simp [bytes]

def ofBytes (bytes : List UInt8) : Word :=
  BitVec.ofNat 256 (ofBigEndian bytes)

/-- All 64 digits. -/
def digits (word : Word) : List Char :=
  word.bytes.flatMap Hex.encodeByte

/-- The digits from the first one that is not zero, the last digit at least. -/
def hex (word : Word) : String :=
  match word.digits.dropWhile (· == '0') with
  | [] => "0x0"
  | digits => "0x" ++ String.ofList digits

inductive ReadError
  | invalidDigit (byte : UInt8)
  | tooLarge
deriving Repr, DecidableEq

def ReadError.message : ReadError → String
  | .invalidDigit byte => "invalid digit: " ++ (Char.ofNat byte.toNat).toString
  | .tooLarge => "the value is too large to fit the target type"

/-- Reads digits from the least significant one on, after `count` digits whose value is `value`.
Underscores are skipped. -/
def readDigits : List UInt8 → Nat → Nat → Except ReadError Nat
  | [], _, value => .ok value
  | 0x5F :: rest, count, value => readDigits rest count value
  | byte :: rest, count, value =>
      match Hex.digit? byte with
      | none => .error (.invalidDigit byte)
      | some 0 => readDigits rest (count + 1) value
      | some digit =>
          if count < 64 then readDigits rest (count + 1) (value + digit * Nat.pow 16 count)
          else .error .tooLarge

/-- Reads hexadecimal digits after an optional prefix; no digits at all are zero. -/
def read (text : String) : Except ReadError Word :=
  (readDigits (Hex.stripPrefix (Text.utf8 text)).reverse 0 0).map (BitVec.ofNat 256)

end Word

end SolTrace
