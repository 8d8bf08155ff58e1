import Mathlib.Algebra.Group.Nat.Defs
import Mathlib.Data.List.Induction
import SolTrace.State.Decode
/-!
Big-endian numbers: their bytes and the parts of a word that packed values are read from.
-/
set_option autoImplicit false

namespace SolTrace

theorem ofBigEndian_concat (bytes : List UInt8) (byte : UInt8) :
    ofBigEndian (bytes ++ [byte]) = ofBigEndian bytes * 256 + byte.toNat := by
  rw [ofBigEndian, List.foldl_append]
  rfl

theorem ofBigEndian_cons (byte : UInt8) (bytes : List UInt8) :
    ofBigEndian (byte :: bytes) = byte.toNat * 256 ^ bytes.length + ofBigEndian bytes := by
  induction bytes using List.reverseRecOn with
  | nil => simp [ofBigEndian]
  | append_singleton bytes last ih =>
      rw [← List.cons_append, ofBigEndian_concat, ih, ofBigEndian_concat, List.length_append,
        List.length_singleton, Nat.pow_succ, Nat.add_mul, Nat.mul_assoc, Nat.add_assoc]

theorem ofBigEndian_lt (bytes : List UInt8) : ofBigEndian bytes < 256 ^ bytes.length := by
  induction bytes using List.reverseRecOn with
  | nil => simp [ofBigEndian]
  | append_singleton bytes byte ih =>
      have bound := byte.toNat_lt
      rw [ofBigEndian_concat, List.length_append, List.length_singleton, Nat.pow_succ]
      omega

theorem ofBigEndian_bigEndian (width n : Nat) :
    ofBigEndian (bigEndian width n) = n % 256 ^ width := by
  induction width generalizing n with
  | zero => simp [bigEndian, ofBigEndian, Nat.mod_one]
  | succ width ih =>
      have byte : (UInt8.ofNat n).toNat = n % 256 := UInt8.toNat_ofNat'
      rw [bigEndian, ofBigEndian_concat, ih, byte, Nat.pow_succ, Nat.mul_comm (256 ^ width) 256,
        Nat.mod_mul]
      omega

theorem bigEndian_ofBigEndian (bytes : List UInt8) :
    bigEndian bytes.length (ofBigEndian bytes) = bytes := by
  induction bytes using List.reverseRecOn with
  | nil => rfl
  | append_singleton bytes byte ih =>
      have bound := byte.toNat_lt
      have high : (ofBigEndian bytes * 256 + byte.toNat) / 256 = ofBigEndian bytes := by omega
      have low : UInt8.ofNat (ofBigEndian bytes * 256 + byte.toNat) = byte := by
        apply UInt8.toNat_inj.mp
        rw [UInt8.toNat_ofNat']
        omega
      rw [List.length_append, List.length_singleton, ofBigEndian_concat, bigEndian, high, low, ih]

/-- The low bytes of a number are those of its low part. -/
theorem bigEndian_append (high low n : Nat) :
    bigEndian (high + low) n = bigEndian high (n / 256 ^ low) ++ bigEndian low n := by
  induction low generalizing n with
  | zero => simp [bigEndian]
  | succ low ih =>
      rw [← Nat.add_assoc, bigEndian, ih, bigEndian, Nat.div_div_eq_div_mul, Nat.pow_succ,
        Nat.mul_comm 256, List.append_assoc]

theorem bigEndian_mod (width n : Nat) : bigEndian width (n % 256 ^ width) = bigEndian width n := by
  have same := bigEndian_ofBigEndian (bigEndian width n)
  rwa [bigEndian_length, ofBigEndian_bigEndian] at same

theorem bigEndian_take (width count n : Nat) (fits : count ≤ width) :
    (bigEndian width n).take count = bigEndian count (n / 256 ^ (width - count)) := by
  have split := bigEndian_append count (width - count) n
  rw [Nat.add_sub_cancel' fits] at split
  rw [split]
  exact List.take_left' (bigEndian_length _ _)

theorem bigEndian_drop (width count n : Nat) (fits : count ≤ width) :
    (bigEndian width n).drop (width - count) = bigEndian count n := by
  have split := bigEndian_append (width - count) count n
  rw [Nat.sub_add_cancel fits] at split
  rw [split]
  exact List.drop_left' (bigEndian_length _ _)

namespace Decode

/-- The bytes of a packed value, from the number that it is. -/
theorem packedBytes_eq (word : Word) (offset width : Nat) (fits : offset + width ≤ 32) :
    packedBytes word offset width = bigEndian width (word.toNat / 256 ^ offset % 256 ^ width) := by
  have rest : 32 - offset - width = 32 - (offset + width) := by omega
  rw [bigEndian_mod, packedBytes, Word.bytes, rest, bigEndian_drop 32 _ _ fits,
    bigEndian_take _ _ _ (Nat.le_add_left width offset), Nat.add_sub_cancel]

/-! ### Signs -/

theorem highBit_eq (byte : UInt8) : (byte &&& 0x80 != 0) = decide (128 ≤ byte.toNat) := by
  obtain ⟨byte⟩ := byte
  revert byte
  decide

/-- The first bit of bytes tells whether their number is in the upper half of those of their
width. -/
theorem signBit_iff (bytes : List UInt8) :
    signBit bytes = true ↔ 256 ^ bytes.length ≤ 2 * ofBigEndian bytes := by
  cases bytes with
  | nil => decide
  | cons byte bytes =>
      have rest := ofBigEndian_lt bytes
      rw [signBit, List.head?_cons, Option.any_some, highBit_eq, decide_eq_true_iff,
        ofBigEndian_cons, List.length_cons, Nat.pow_succ]
      constructor
      · intro high
        have bound := Nat.mul_le_mul_right (256 ^ bytes.length) high
        omega
      · intro high
        by_contra low
        have below : byte.toNat ≤ 127 := by omega
        have bound := Nat.mul_le_mul_right (256 ^ bytes.length) below
        omega

/-- Ones above the bits of a number make it negative. -/
theorem toInt_extended (word : Word) {bits : Nat} (short : bits < 256)
    (small : word.toNat < 2 ^ bits) :
    (word ||| BitVec.allOnes 256 <<< bits).toInt = word.toNat - (2 ^ bits : Nat) := by
  have whole : 2 ^ bits * 2 ^ (256 - bits) = 2 ^ 256 := by
    rw [← Nat.pow_add, Nat.add_sub_cancel' (Nat.le_of_lt short)]
  have half : 2 ^ bits ≤ 2 ^ 255 := Nat.pow_le_pow_right (by decide) (by omega)
  have ones : (BitVec.allOnes 256 <<< bits).toNat = 2 ^ 256 - 2 ^ bits := by
    rw [BitVec.toNat_shiftLeft, BitVec.toNat_allOnes, Nat.shiftLeft_eq]
    have split : (2 ^ 256 - 1) * 2 ^ bits = 2 ^ 256 * (2 ^ bits - 1) + (2 ^ 256 - 2 ^ bits) := by
      omega
    rw [split, Nat.mul_add_mod, Nat.mod_eq_of_lt (by omega)]
  have number : (word ||| BitVec.allOnes 256 <<< bits).toNat = 2 ^ 256 - 2 ^ bits + word.toNat := by
    rw [BitVec.toNat_or, ones, ← whole, ← Nat.mul_sub_one, Nat.or_comm,
      ← Nat.two_pow_add_eq_or_of_lt small]
  rw [BitVec.toInt_eq_toNat_cond, number, if_neg (by omega)]
  omega

/-- Extending the sign gives the two's complement number of the bytes. -/
theorem signed_eq (bytes : List UInt8) (fits : bytes.length ≤ 32) :
    signed bytes.length bytes =
      if 256 ^ bytes.length ≤ 2 * ofBigEndian bytes then
        (ofBigEndian bytes : Int) - (256 ^ bytes.length : Nat)
      else ofBigEndian bytes := by
  have modulus : (256 : Nat) ^ bytes.length = 2 ^ (8 * bytes.length) := by
    rw [Nat.pow_mul]
  have small := ofBigEndian_lt bytes
  have room : 256 ^ bytes.length ≤ 2 ^ 256 := by
    rw [modulus]
    exact Nat.pow_le_pow_right (by decide) (by omega)
  have word : (Word.ofBytes bytes).toNat = ofBigEndian bytes := by
    rw [Word.ofBytes, BitVec.toNat_ofNat, Nat.mod_eq_of_lt (by omega)]
  have sign := signBit_iff bytes
  rw [signed]
  by_cases partly : bytes.length < 32
  · have short : 8 * bytes.length < 256 := by omega
    by_cases negative : 256 ^ bytes.length ≤ 2 * ofBigEndian bytes
    · rw [if_pos ⟨partly, sign.mpr negative⟩, if_pos negative,
        toInt_extended _ short (by rw [word, ← modulus]; exact small), word, modulus]
    · have half : 2 ^ (8 * bytes.length) ≤ 2 ^ 255 :=
        Nat.pow_le_pow_right (by decide) (by omega)
      rw [if_neg (fun both => negative (sign.mp both.2)), if_neg negative, BitVec.toInt_eq_toNat_cond, word,
        if_pos (by omega)]
  · have full : bytes.length = 32 := by omega
    rw [if_neg (fun both => partly both.1), BitVec.toInt_eq_toNat_cond, word, full]
    by_cases negative : 2 ^ 256 ≤ 2 * ofBigEndian bytes
    · rw [if_neg (by omega), if_pos (by omega)]
      rfl
    · rw [if_pos (by omega), if_neg (by omega)]

theorem signed_bigEndian (width : Nat) (n : Int) (fits : width ≤ 32)
    (low : -(256 ^ width : Nat) ≤ 2 * n) (high : 2 * n < (256 ^ width : Nat)) :
    signed width (bigEndian width (n % (256 ^ width : Nat)).toNat) = n := by
  have bound : (n % (256 ^ width : Nat)).toNat < 256 ^ width := by
    have positive : 0 < 256 ^ width := Nat.pow_pos (by decide)
    omega
  have value := signed_eq (bigEndian width (n % (256 ^ width : Nat)).toNat)
    (by rwa [bigEndian_length])
  rw [bigEndian_length, ofBigEndian_bigEndian, Nat.mod_eq_of_lt bound] at value
  rw [value]
  by_cases negative : n < 0
  · have wrapped : n % (256 ^ width : Nat) = n + (256 ^ width : Nat) := by
      rw [← Int.add_emod_right]
      exact Int.emod_eq_of_lt (by omega) (by omega)
    rw [wrapped, if_pos (by omega)]
    omega
  · have same : n % (256 ^ width : Nat) = n := Int.emod_eq_of_lt (by omega) (by omega)
    rw [same, if_neg (by omega)]
    omega

end Decode

end SolTrace
