/-!
Text as UTF-8 bytes. `utf8` writes a text, `ofUtf8Lossy` reads any bytes back and puts a
replacement character for every maximal ill-formed part.
-/
set_option autoImplicit false

namespace SolTrace.Text

def utf8 (s : String) : List UInt8 :=
  s.toList.flatMap String.utf8EncodeChar

/-- The closed ranges of the bytes that follow a lead byte, or none if no character starts with
the byte. The narrow second ranges rule out overlong forms, surrogates and numbers that are too
large. -/
def continuations (lead : UInt8) : Option (List (UInt8 × UInt8)) :=
  if lead < 0x80 then some []
  else if lead < 0xC2 then none
  else if lead < 0xE0 then some [(0x80, 0xBF)]
  else if lead = 0xE0 then some [(0xA0, 0xBF), (0x80, 0xBF)]
  else if lead = 0xED then some [(0x80, 0x9F), (0x80, 0xBF)]
  else if lead < 0xF0 then some [(0x80, 0xBF), (0x80, 0xBF)]
  else if lead = 0xF0 then some [(0x90, 0xBF), (0x80, 0xBF), (0x80, 0xBF)]
  else if lead < 0xF4 then some [(0x80, 0xBF), (0x80, 0xBF), (0x80, 0xBF)]
  else if lead = 0xF4 then some [(0x80, 0x8F), (0x80, 0xBF), (0x80, 0xBF)]
  else none

/-- Reads the bytes that the ranges ask for: the scalar value, or none if a byte is missing or out
of its range, and the bytes that are left. -/
def readContinuations : List (UInt8 × UInt8) → Nat → List UInt8 → Option Nat × List UInt8
  | [], scalar, bytes => (some scalar, bytes)
  | _ :: _, _, [] => (none, [])
  | (low, high) :: ranges, scalar, byte :: bytes =>
      if low ≤ byte ∧ byte ≤ high then
        readContinuations ranges (scalar * 64 + byte.toNat % 64) bytes
      else
        (none, byte :: bytes)

theorem readContinuations_length_le (ranges : List (UInt8 × UInt8)) (scalar : Nat)
    (bytes : List UInt8) : (readContinuations ranges scalar bytes).2.length ≤ bytes.length := by
  induction ranges generalizing scalar bytes with
  | nil => simp [readContinuations]
  | cons range ranges ih =>
      cases bytes with
      | nil => simp [readContinuations]
      | cons byte bytes =>
          simp only [readContinuations]
          split
          · exact Nat.le_succ_of_le (ih _ bytes)
          · exact Nat.le_refl _

/-- The bits of the scalar value that a lead byte holds. -/
def leadBits (lead : UInt8) : Nat → Nat
  | 0 => lead.toNat
  | 1 => lead.toNat % 32
  | 2 => lead.toNat % 16
  | _ => lead.toNat % 8

/-- The character or the ill-formed part that starts with `lead`, and what follows it. -/
def readChar (lead : UInt8) (bytes : List UInt8) : Option Char × List UInt8 :=
  match continuations lead with
  | none => (none, bytes)
  | some ranges =>
      let read := readContinuations ranges (leadBits lead ranges.length) bytes
      (read.1.map Char.ofNat, read.2)

theorem readChar_length_le (lead : UInt8) (bytes : List UInt8) :
    (readChar lead bytes).2.length ≤ bytes.length := by
  unfold readChar
  split
  · exact Nat.le_refl _
  · exact readContinuations_length_le _ _ bytes

def decodeLossy : List UInt8 → List Char
  | [] => []
  | lead :: bytes =>
      (readChar lead bytes).1.getD '\uFFFD' :: decodeLossy (readChar lead bytes).2
termination_by bytes => bytes.length
decreasing_by
  have := readChar_length_le lead bytes
  simp only [List.length_cons]
  omega

def ofUtf8Lossy (bytes : List UInt8) : String :=
  String.ofList (decodeLossy bytes)

end SolTrace.Text
