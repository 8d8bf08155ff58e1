import SolTrace.Text.Blank
import SolTrace.Text.Utf8
/-!
Bytes written as hexadecimal text, two digits a byte. Reading takes digits of either case and
names the first byte of the text that is no digit.
-/
set_option autoImplicit false

namespace SolTrace.Hex

def digitChar (n : Nat) : Char :=
  if n < 10 then Char.ofNat ('0'.toNat + n) else Char.ofNat ('a'.toNat + n - 10)

def encodeByte (byte : UInt8) : List Char :=
  [digitChar (byte.toNat / 16), digitChar (byte.toNat % 16)]

def encode (bytes : List UInt8) : String :=
  String.ofList (bytes.flatMap encodeByte)

/-- The text of `encode` after `0x`. -/
def encode0x (bytes : List UInt8) : String :=
  "0x" ++ encode bytes

/-- The value of a digit, given as the byte of an ASCII character. -/
def digit? (byte : UInt8) : Option Nat :=
  if 0x30 ≤ byte ∧ byte ≤ 0x39 then some (byte.toNat - 0x30)
  else if 0x61 ≤ byte ∧ byte ≤ 0x66 then some (byte.toNat - 0x61 + 10)
  else if 0x41 ≤ byte ∧ byte ≤ 0x46 then some (byte.toNat - 0x41 + 10)
  else none

/-- The text without one leading `0x` or `0X`. -/
def stripPrefix : List UInt8 → List UInt8
  | 0x30 :: 0x78 :: rest => rest
  | 0x30 :: 0x58 :: rest => rest
  | text => text

/-- A byte of a text that is no hexadecimal digit, and its index. -/
structure BadDigit where
  byte : UInt8
  index : Nat
deriving Repr, DecidableEq

/-- Reads pairs of digits from `index` on; a digit that has no partner is ignored. -/
def decodePairs : Nat → List UInt8 → Except BadDigit (List UInt8)
  | index, high :: low :: rest =>
      match digit? high, digit? low with
      | none, _ => .error ⟨high, index⟩
      | some _, none => .error ⟨low, index + 1⟩
      | some h, some l => (decodePairs (index + 2) rest).map (UInt8.ofNat (16 * h + l) :: ·)
  | _, _ => .ok []

/-- Reads a text of digits after up to two prefixes. An odd text is filled with a zero after the
first prefix, so a second one may be completed by that zero. -/
def decodeBytes (text : List UInt8) : Except BadDigit (List UInt8) :=
  let digits := stripPrefix text
  let even := if digits.length % 2 = 1 then 0x30 :: digits else digits
  decodePairs 0 (stripPrefix even)

/-- Reads a text between blanks. -/
def decode (text : String) : Except BadDigit (List UInt8) :=
  decodeBytes (Text.utf8 (String.ofList (Text.trim text.toList)))

/-- Whether a code point below 256 is written as its number between quotes. -/
def isUnprintable (n : Nat) : Bool :=
  n < 0x20 || (0x7F ≤ n && n ≤ 0xA0) || n == 0xAD

/-- A Latin-1 character between quotes, with escapes. -/
def quoteLatin1 (byte : UInt8) : String :=
  let body :=
    match byte with
    | 0x00 => "\\0"
    | 0x09 => "\\t"
    | 0x0A => "\\n"
    | 0x0D => "\\r"
    | 0x27 => "\\'"
    | 0x5C => "\\\\"
    | byte =>
        if isUnprintable byte.toNat then
          "\\u\x7b" ++ String.ofList (Nat.toDigits 16 byte.toNat) ++ "\x7d"
        else
          (Char.ofNat byte.toNat).toString
  "'" ++ body ++ "'"

def BadDigit.message (bad : BadDigit) : String :=
  "invalid character " ++ quoteLatin1 bad.byte ++ " at position " ++ toString bad.index

end SolTrace.Hex
