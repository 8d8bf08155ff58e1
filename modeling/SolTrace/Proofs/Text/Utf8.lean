import SolTrace.Text.Utf8
/-!
Reading UTF-8 gives back the text that was written, without a replacement character.
-/
set_option autoImplicit false

namespace SolTrace.Text

/-- A byte in its range adds six bits to the scalar value. -/
theorem readContinuations_cons (low high byte : UInt8) (ranges : List (UInt8 × UInt8))
    (scalar : Nat) (bytes : List UInt8) (above : low.toNat ≤ byte.toNat)
    (below : byte.toNat ≤ high.toNat) :
    readContinuations ((low, high) :: ranges) scalar (byte :: bytes) =
      readContinuations ranges (scalar * 64 + byte.toNat % 64) bytes := by
  have inside : low ≤ byte ∧ byte ≤ high :=
    ⟨UInt8.le_iff_toNat_le.mpr above, UInt8.le_iff_toNat_le.mpr below⟩
  rw [readContinuations, if_pos inside]

theorem readChar_of_continuations (lead : UInt8) (bytes rest : List UInt8) (c : Char)
    (ranges : List (UInt8 × UInt8)) (follow : continuations lead = some ranges)
    (read : readContinuations ranges (leadBits lead ranges.length) bytes =
      (some c.toNat, rest)) :
    readChar lead bytes = (some c, rest) := by
  simp only [readChar, follow, read, Option.map_some, Char.ofNat_toNat]

/-- The byte that holds six bits of a scalar value. -/
def tail (n : Nat) : UInt8 :=
  UInt8.ofNat (n % 64 + 0x80)

theorem tail_toNat (n : Nat) : (tail n).toNat = n % 64 + 0x80 := by
  rw [tail, UInt8.toNat_ofNat']
  omega

/-- The range of a byte after the first one, where the lead byte does not narrow it. -/
theorem readContinuations_tail (n scalar : Nat) (ranges : List (UInt8 × UInt8))
    (bytes : List UInt8) :
    readContinuations ((0x80, 0xBF) :: ranges) scalar (tail n :: bytes) =
      readContinuations ranges (scalar * 64 + n % 64) bytes := by
  have value := tail_toNat n
  rw [readContinuations_cons 0x80 0xBF (tail n) ranges scalar bytes
    (show 128 ≤ (tail n).toNat by omega) (show (tail n).toNat ≤ 191 by omega)]
  rw [show (tail n).toNat % 64 = n % 64 by omega]

theorem continuations_two (lead : UInt8) (above : 0xC2 ≤ lead.toNat) (below : lead.toNat < 0xE0) :
    continuations lead = some [(0x80, 0xBF)] := by
  simp only [continuations, UInt8.lt_iff_toNat_lt, UInt8.reduceToNat]
  rw [if_neg (by omega), if_neg (by omega), if_pos below]

/-- What follows the lead byte of a character of three bytes. -/
theorem continuations_three (lead : UInt8) (above : 0xE0 ≤ lead.toNat) (below : lead.toNat < 0xF0) :
    ∃ low high : UInt8, continuations lead = some [(low, high), (0x80, 0xBF)] ∧
      low.toNat = (if lead.toNat = 0xE0 then 0xA0 else 0x80) ∧
      high.toNat = (if lead.toNat = 0xED then 0x9F else 0xBF) := by
  simp only [continuations, UInt8.lt_iff_toNat_lt, ← UInt8.toNat_inj, UInt8.reduceToNat]
  rw [if_neg (by omega), if_neg (by omega), if_neg (by omega)]
  by_cases overlong : lead.toNat = 0xE0
  · exact ⟨0xA0, 0xBF, by simp [overlong]⟩
  · by_cases surrogate : lead.toNat = 0xED
    · exact ⟨0x80, 0x9F, by simp [surrogate]⟩
    · exact ⟨0x80, 0xBF, by simp [overlong, surrogate, below]⟩

/-- What follows the lead byte of a character of four bytes. -/
theorem continuations_four (lead : UInt8) (above : 0xF0 ≤ lead.toNat)
    (below : lead.toNat ≤ 0xF4) :
    ∃ low high : UInt8, continuations lead = some [(low, high), (0x80, 0xBF), (0x80, 0xBF)] ∧
      low.toNat = (if lead.toNat = 0xF0 then 0x90 else 0x80) ∧
      high.toNat = (if lead.toNat = 0xF4 then 0x8F else 0xBF) := by
  simp only [continuations, UInt8.lt_iff_toNat_lt, ← UInt8.toNat_inj, UInt8.reduceToNat]
  rw [if_neg (by omega), if_neg (by omega), if_neg (by omega), if_neg (by omega),
    if_neg (by omega), if_neg (by omega)]
  by_cases overlong : lead.toNat = 0xF0
  · exact ⟨0x90, 0xBF, by simp [overlong]⟩
  · by_cases last : lead.toNat = 0xF4
    · exact ⟨0x80, 0x8F, by simp [last]⟩
    · exact ⟨0x80, 0xBF, by simp [overlong, last]; omega⟩

theorem readChar_one (c : Char) (rest : List UInt8) (size : c.toNat ≤ 0x7F) :
    readChar (UInt8.ofNat c.toNat) rest = (some c, rest) := by
  have lead : (UInt8.ofNat c.toNat).toNat = c.toNat := by
    rw [UInt8.toNat_ofNat']
    omega
  apply readChar_of_continuations _ _ _ _ []
  · simp only [continuations, UInt8.lt_iff_toNat_lt, lead, UInt8.reduceToNat]
    exact if_pos (by omega)
  · simp only [readContinuations, List.length_nil, leadBits, lead]

theorem readChar_two (c : Char) (rest : List UInt8) (above : 0x7F < c.toNat)
    (size : c.toNat ≤ 0x7FF) :
    readChar (UInt8.ofNat (c.toNat / 64 % 0x20 + 0xC0)) (tail c.toNat :: rest) =
      (some c, rest) := by
  have lead : (UInt8.ofNat (c.toNat / 64 % 0x20 + 0xC0)).toNat = c.toNat / 64 + 0xC0 := by
    rw [UInt8.toNat_ofNat']
    omega
  apply readChar_of_continuations _ _ _ _ _
    (continuations_two _ (by omega) (by omega))
  rw [readContinuations_tail]
  simp only [readContinuations, List.length_cons, List.length_nil, leadBits, lead]
  congr 2
  omega

/-- The surrogates are no characters. -/
theorem not_surrogate (c : Char) : c.toNat < 0xD800 ∨ 0xDFFF < c.toNat := by
  have valid := c.valid
  simp only [UInt32.isValidChar, Nat.isValidChar] at valid
  change c.val.toNat < _ ∨ _ < c.val.toNat
  omega

theorem readChar_three (c : Char) (rest : List UInt8) (above : 0x7FF < c.toNat)
    (size : c.toNat ≤ 0xFFFF) :
    readChar (UInt8.ofNat (c.toNat / 4096 % 0x10 + 0xE0))
      (tail (c.toNat / 64) :: tail c.toNat :: rest) = (some c, rest) := by
  have lead : (UInt8.ofNat (c.toNat / 4096 % 0x10 + 0xE0)).toNat = c.toNat / 4096 + 0xE0 := by
    rw [UInt8.toNat_ofNat']
    omega
  have gap := not_surrogate c
  have second := tail_toNat (c.toNat / 64)
  obtain ⟨low, high, follow, lowest, highest⟩ :=
    continuations_three (UInt8.ofNat (c.toNat / 4096 % 0x10 + 0xE0)) (by omega) (by omega)
  apply readChar_of_continuations _ _ _ _ _ follow
  rw [readContinuations_cons low high _ _ _ _ (by split at lowest <;> omega)
    (by split at highest <;> omega), readContinuations_tail]
  simp only [readContinuations, List.length_cons, List.length_nil, leadBits, lead, second]
  congr 2
  omega

theorem readChar_four (c : Char) (rest : List UInt8) (above : 0xFFFF < c.toNat) :
    readChar (UInt8.ofNat (c.toNat / 262144 % 0x08 + 0xF0))
      (tail (c.toNat / 4096) :: tail (c.toNat / 64) :: tail c.toNat :: rest) =
      (some c, rest) := by
  have largest : c.toNat < 0x110000 := by
    have valid := c.valid
    simp only [UInt32.isValidChar, Nat.isValidChar] at valid
    change c.val.toNat < _
    omega
  have lead : (UInt8.ofNat (c.toNat / 262144 % 0x08 + 0xF0)).toNat = c.toNat / 262144 + 0xF0 := by
    rw [UInt8.toNat_ofNat']
    omega
  have second := tail_toNat (c.toNat / 4096)
  obtain ⟨low, high, follow, lowest, highest⟩ :=
    continuations_four (UInt8.ofNat (c.toNat / 262144 % 0x08 + 0xF0)) (by omega) (by omega)
  apply readChar_of_continuations _ _ _ _ _ follow
  rw [readContinuations_cons low high _ _ _ _ (by split at lowest <;> omega)
    (by split at highest <;> omega), readContinuations_tail, readContinuations_tail]
  simp only [readContinuations, List.length_cons, List.length_nil, leadBits, lead, second]
  congr 2
  omega

/-- A character that was written is read back, whatever follows. -/
theorem decodeLossy_utf8EncodeChar (c : Char) (rest : List UInt8) :
    decodeLossy (String.utf8EncodeChar c ++ rest) = c :: decodeLossy rest := by
  have step (lead : UInt8) (bytes : List UInt8) (read : readChar lead bytes = (some c, rest)) :
      decodeLossy (lead :: bytes) = c :: decodeLossy rest := by
    rw [decodeLossy, read, Option.getD_some]
  simp only [String.utf8EncodeChar]
  split
  next small => exact step _ _ (readChar_one c rest small)
  next large =>
    split
    next small => exact step _ _ (readChar_two c rest (Nat.lt_of_not_le large) small)
    next large =>
      split
      next small => exact step _ _ (readChar_three c rest (Nat.lt_of_not_le large) small)
      next large => exact step _ _ (readChar_four c rest (Nat.lt_of_not_le large))

/-- A text is read back from its bytes. -/
theorem ofUtf8Lossy_utf8 (s : String) : ofUtf8Lossy (utf8 s) = s := by
  have chars (text : List Char) :
      decodeLossy (text.flatMap String.utf8EncodeChar) = text := by
    induction text with
    | nil => rw [List.flatMap_nil, decodeLossy]
    | cons c text ih => rw [List.flatMap_cons, decodeLossy_utf8EncodeChar, ih]
  rw [ofUtf8Lossy, utf8, chars, String.ofList_toList]

end SolTrace.Text
