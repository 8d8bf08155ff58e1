import Mathlib.Data.Nat.Digits.Defs
import Mathlib.Data.Nat.Digits.Lemmas
import Mathlib.Tactic.IntervalCases
import SolTrace.Proofs.Code.Normalizing
import SolTrace.Proofs.Storage.Bytes
/-!
Hexadecimal text. Bytes and words are read back from their digits, with a prefix or without, and
with zeros in front or without.
-/
set_option autoImplicit false

namespace SolTrace

namespace Hex

/-! ### Digits -/

/-- The byte of a digit in text. -/
def digitByte (d : Nat) : UInt8 :=
  UInt8.ofNat (digitChar d).toNat

/-- What a digit is as a byte: it is read back, ends no prefix and is not skipped. -/
theorem digitByte_spec (d : Nat) (small : d < 16) :
    digit? (digitByte d) = some d ∧ Bytecode.lowerByte (digitByte d) ≠ 0x78 ∧
      digitByte d ≠ 0x5F := by
  interval_cases d <;> decide

theorem utf8EncodeChar_digitChar (d : Nat) (small : d < 16) :
    String.utf8EncodeChar (digitChar d) = [digitByte d] := by
  interval_cases d <;> rfl

theorem isBlank_digitChar (d : Nat) (small : d < 16) : Text.isBlank (digitChar d) = false := by
  interval_cases d <;> rfl

theorem digitChar_eq_zero (d : Nat) (small : d < 16) : (digitChar d == '0') = (d == 0) := by
  interval_cases d <;> rfl

/-- The values of the digits of bytes, two for each byte. -/
def nibbles (bytes : List UInt8) : List Nat :=
  bytes.flatMap fun byte => [byte.toNat / 16, byte.toNat % 16]

theorem nibbles_small {bytes : List UInt8} {d : Nat} (within : d ∈ nibbles bytes) : d < 16 := by
  obtain ⟨byte, -, within⟩ := List.mem_flatMap.mp within
  have bound := byte.toNat_lt
  simp only [List.mem_cons, List.not_mem_nil, or_false] at within
  omega

theorem length_nibbles (bytes : List UInt8) : (nibbles bytes).length = 2 * bytes.length := by
  induction bytes with
  | nil => rfl
  | cons byte bytes ih =>
      rw [nibbles, List.flatMap_cons, List.length_append, ← nibbles, ih, List.length_cons]
      simp only [List.length_cons, List.length_nil]
      omega

theorem flatMap_encodeByte (bytes : List UInt8) :
    bytes.flatMap encodeByte = (nibbles bytes).map digitChar := by
  rw [nibbles, List.map_flatMap]
  rfl

theorem utf8_digits {digits : List Nat} (small : ∀ d ∈ digits, d < 16) :
    Text.utf8 (String.ofList (digits.map digitChar)) = digits.map digitByte := by
  rw [Text.utf8, String.toList_ofList]
  induction digits with
  | nil => rfl
  | cons d digits ih =>
      rw [List.map_cons, List.flatMap_cons, utf8EncodeChar_digitChar d (small d List.mem_cons_self),
        ih fun d within => small d (List.mem_cons_of_mem _ within)]
      rfl

/-- Digits have no prefix. -/
theorem stripPrefix_digits {digits : List Nat} (small : ∀ d ∈ digits, d < 16) :
    stripPrefix (digits.map digitByte) = digits.map digitByte := by
  apply Bytecode.Bare.stripPrefix
  intro second found
  obtain ⟨d, within, rfl⟩ := List.mem_map.mp (List.mem_of_getElem? found)
  exact (digitByte_spec d (small d within)).2.1

/-- Digits after `0x`. -/
theorem stripPrefix_0x {digits : List Nat} (small : ∀ d ∈ digits, d < 16) :
    stripPrefix (Text.utf8 ("0x" ++ String.ofList (digits.map digitChar))) =
      digits.map digitByte := by
  have text : Text.utf8 ("0x" ++ String.ofList (digits.map digitChar)) =
      0x30 :: 0x78 :: Text.utf8 (String.ofList (digits.map digitChar)) := by
    rw [Text.utf8, String.toList_append, List.flatMap_append]
    rfl
  rw [text, stripPrefix, utf8_digits small]

theorem trim_digits {digits : List Nat} (small : ∀ d ∈ digits, d < 16) :
    Text.trim (digits.map digitChar) = digits.map digitChar := by
  have solid (text : List Char) (within : ∀ c ∈ text, c ∈ digits.map digitChar) :
      text.dropWhile Text.isBlank = text := by
    cases text with
    | nil => rfl
    | cons c text =>
        obtain ⟨d, digit, rfl⟩ := List.mem_map.mp (within c List.mem_cons_self)
        rw [List.dropWhile_cons, if_neg (by simp [isBlank_digitChar d (small d digit)])]
  rw [Text.trim, Text.trimStart, solid _ fun _ within => within, Text.trimEnd,
    solid _ fun _ within => List.mem_reverse.mp within, List.reverse_reverse]

/-- Zeros in front of digits are zeros in front of their text. -/
theorem dropWhile_digits {digits : List Nat} (small : ∀ d ∈ digits, d < 16) :
    (digits.map digitChar).dropWhile (· == '0') =
      (digits.dropWhile (· == 0)).map digitChar := by
  induction digits with
  | nil => rfl
  | cons d digits ih =>
      rw [List.map_cons, List.dropWhile_cons, List.dropWhile_cons,
        digitChar_eq_zero d (small d List.mem_cons_self)]
      split
      · exact ih fun d within => small d (List.mem_cons_of_mem _ within)
      · rfl

/-! ### Bytes -/

theorem decodePairs_nibbles (bytes : List UInt8) (index : Nat) :
    decodePairs index ((nibbles bytes).map digitByte) = .ok bytes := by
  induction bytes generalizing index with
  | nil => rfl
  | cons byte bytes ih =>
      have bound := byte.toNat_lt
      have whole : 16 * (byte.toNat / 16) + byte.toNat % 16 = byte.toNat := by omega
      have split : (nibbles (byte :: bytes)).map digitByte =
          digitByte (byte.toNat / 16) :: digitByte (byte.toNat % 16) ::
            (nibbles bytes).map digitByte := by
        rw [nibbles, List.flatMap_cons, List.map_append, ← nibbles]
        rfl
      rw [split, decodePairs]
      simp only [(digitByte_spec _ (show byte.toNat / 16 < 16 by omega)).1,
        (digitByte_spec _ (show byte.toNat % 16 < 16 by omega)).1, ih, whole, UInt8.ofNat_toNat]
      rfl

theorem utf8_encode (bytes : List UInt8) :
    Text.utf8 (encode bytes) = (nibbles bytes).map digitByte := by
  rw [encode, flatMap_encodeByte, utf8_digits fun _ => nibbles_small]

/-- Bytes are read back from their digits. -/
theorem decode_encode (bytes : List UInt8) : decode (encode bytes) = .ok bytes := by
  have plain : stripPrefix ((nibbles bytes).map digitByte) = (nibbles bytes).map digitByte :=
    stripPrefix_digits fun _ => nibbles_small
  have even : ¬ ((nibbles bytes).map digitByte).length % 2 = 1 := by
    rw [List.length_map, length_nibbles]
    omega
  rw [decode, encode, String.toList_ofList, flatMap_encodeByte, trim_digits fun _ => nibbles_small,
    ← flatMap_encodeByte, ← encode, utf8_encode, decodeBytes]
  simp only [plain, if_neg even]
  exact decodePairs_nibbles bytes 0

theorem join_encode (pieces : List (List UInt8)) :
    String.join (pieces.map encode) = encode pieces.flatten := by
  induction pieces with
  | nil => rfl
  | cons piece pieces ih =>
      rw [List.map_cons, String.join_cons, ih, List.flatten_cons, encode, encode, encode,
        List.flatMap_append, String.ofList_append]

theorem stripPrefix_encode0x (bytes : List UInt8) :
    stripPrefix (Text.utf8 (encode0x bytes)) = (nibbles bytes).map digitByte := by
  rw [encode0x, encode, flatMap_encodeByte, stripPrefix_0x fun _ => nibbles_small]

end Hex

namespace Word

/-! ### Words -/

/-- Digits are read from the last one on. -/
theorem readDigits_digits (digits : List Nat) (small : ∀ d ∈ digits, d < 16) (count value : Nat)
    (room : count + digits.length ≤ 64) :
    readDigits (digits.map Hex.digitByte) count value =
      .ok (value + 16 ^ count * Nat.ofDigits 16 digits) := by
  induction digits generalizing count value with
  | nil => simp [readDigits]
  | cons d digits ih =>
      obtain ⟨known, -, notSkipped⟩ := Hex.digitByte_spec d (small d List.mem_cons_self)
      have next := fun value => ih (fun d within => small d (List.mem_cons_of_mem _ within))
        (count + 1) value (by rw [List.length_cons] at room; omega)
      have step : readDigits (Hex.digitByte d :: digits.map Hex.digitByte) count value =
          readDigits (digits.map Hex.digitByte) (count + 1) (value + d * 16 ^ count) := by
        have inside : count < 64 := by
          rw [List.length_cons] at room
          omega
        rw [readDigits, known]
        · cases d with
          | zero => simp
          | succ d => simp [inside]
        · exact notSkipped
      rw [List.map_cons, step, next, Nat.ofDigits_cons, Nat.pow_succ]
      congr 1
      ring

theorem ofDigits_nibbles (bytes : List UInt8) :
    Nat.ofDigits 16 (Hex.nibbles bytes).reverse = ofBigEndian bytes := by
  induction bytes with
  | nil => rfl
  | cons byte bytes ih =>
      have split : Hex.nibbles (byte :: bytes) =
          byte.toNat / 16 :: byte.toNat % 16 :: Hex.nibbles bytes := by
        rw [Hex.nibbles, List.flatMap_cons, ← Hex.nibbles]
        rfl
      have whole := Nat.div_add_mod byte.toNat 16
      have power : 16 ^ (2 * bytes.length) = 256 ^ bytes.length := Nat.pow_mul 16 2 _
      rw [split, Nat.ofDigits_reverse_cons, Nat.ofDigits_reverse_cons, ih, List.length_cons,
        Hex.length_nibbles, ofBigEndian_cons, Nat.pow_succ, power]
      calc ofBigEndian bytes + 256 ^ bytes.length * (byte.toNat % 16) +
            256 ^ bytes.length * 16 * (byte.toNat / 16)
          = (16 * (byte.toNat / 16) + byte.toNat % 16) * 256 ^ bytes.length +
              ofBigEndian bytes := by ring
        _ = byte.toNat * 256 ^ bytes.length + ofBigEndian bytes := by rw [whole]

/-- Zeros in front of digits do not count. -/
theorem ofDigits_dropWhile (digits : List Nat) :
    Nat.ofDigits 16 (digits.dropWhile (· == 0)).reverse = Nat.ofDigits 16 digits.reverse := by
  induction digits with
  | nil => rfl
  | cons d digits ih =>
      rw [List.dropWhile_cons]
      split
      · next zero =>
          rw [beq_iff_eq.mp zero, ih, Nat.ofDigits_reverse_zero_cons]
      · rfl

/-- A value is read back from as many bytes as it has. -/
theorem ofNat_ofBigEndian {bits : Nat} (value : BitVec bits) (width : Nat)
    (room : 256 ^ width = 2 ^ bits) :
    BitVec.ofNat bits (ofBigEndian (bigEndian width value.toNat)) = value := by
  rw [ofBigEndian_bigEndian, room, Nat.mod_eq_of_lt value.isLt, BitVec.ofNat_toNat,
    BitVec.setWidth_eq]

theorem ofBytes_bytes (word : Word) : ofBytes word.bytes = word :=
  ofNat_ofBigEndian word 32 (by norm_num)

/-- A word is read from the digits that it has after zeros. -/
theorem read_digits {text : String} {digits : List Nat} {word : Word}
    (stripped : Hex.stripPrefix (Text.utf8 text) = digits.map Hex.digitByte)
    (small : ∀ d ∈ digits, d < 16) (few : digits.length ≤ 64)
    (value : Nat.ofDigits 16 digits.reverse = ofBigEndian word.bytes) : read text = .ok word := by
  have all := readDigits_digits digits.reverse (fun d within => small d (List.mem_reverse.mp within))
    0 0 (by rw [List.length_reverse]; omega)
  rw [read, stripped, ← List.map_reverse, all, Nat.zero_add, Nat.pow_zero, Nat.one_mul, value]
  exact congrArg Except.ok word.ofBytes_bytes

theorem length_nibbles_bytes (word : Word) : (Hex.nibbles word.bytes).length = 64 := by
  rw [Hex.length_nibbles, bytes_length]

/-- A word is read back from all its digits. -/
theorem read_ofList_digits (word : Word) : read (String.ofList word.digits) = .ok word := by
  have small : ∀ d ∈ Hex.nibbles word.bytes, d < 16 := fun _ => Hex.nibbles_small
  refine read_digits ?_ small (Nat.le_of_eq word.length_nibbles_bytes)
    (ofDigits_nibbles word.bytes)
  rw [digits, Hex.flatMap_encodeByte, Hex.utf8_digits small, Hex.stripPrefix_digits small]

/-- A word is read back from its digits without zeros in front. -/
theorem read_hex (word : Word) : read word.hex = .ok word := by
  have small : ∀ d ∈ (Hex.nibbles word.bytes).dropWhile (· == 0), d < 16 := fun d within =>
    Hex.nibbles_small ((List.dropWhile_suffix _).mem within)
  have few : ((Hex.nibbles word.bytes).dropWhile (· == 0)).length ≤ 64 := by
    rw [← word.length_nibbles_bytes]
    exact (List.dropWhile_suffix _).length_le
  have value : Nat.ofDigits 16 ((Hex.nibbles word.bytes).dropWhile (· == 0)).reverse =
      ofBigEndian word.bytes := by
    rw [ofDigits_dropWhile, ofDigits_nibbles]
  have shown : word.digits.dropWhile (· == '0') =
      ((Hex.nibbles word.bytes).dropWhile (· == 0)).map Hex.digitChar := by
    rw [digits, Hex.flatMap_encodeByte, Hex.dropWhile_digits fun _ => Hex.nibbles_small]
  rw [hex, shown]
  cases left : (Hex.nibbles word.bytes).dropWhile (· == 0) with
  | nil =>
      rw [left] at value
      have zero : Hex.stripPrefix (Text.utf8 "0x0") = [0].map Hex.digitByte := rfl
      exact read_digits zero (by decide) (by decide) value
  | cons d left' =>
      rw [left] at small few value
      exact read_digits (Hex.stripPrefix_0x small) small few value

end Word

theorem Address.ofBytes_bytes (address : Address) : ofBytes address.bytes = address :=
  Word.ofNat_ofBigEndian address 20 (by norm_num)

end SolTrace
