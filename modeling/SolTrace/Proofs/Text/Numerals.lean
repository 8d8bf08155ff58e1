import Mathlib.Data.List.TakeDrop
import Mathlib.Data.List.TakeWhile
import Mathlib.Tactic.IntervalCases
import SolTrace.Text.Integer
import SolTrace.Text.Split
/-!
Numbers and fields in text. A number may be written with a sign and with zeros in front; however
it is written, it is read back if it is in range. Fields that are put together with a separator
are told apart again.
-/
set_option autoImplicit false

namespace SolTrace.Text

/-! ### Digits -/

/-- Whether a text is decimal digits, at least one, that stand for a number. -/
inductive Numeral : List Char → Nat → Prop
  | digit (d : Nat) (small : d < 10) : Numeral [d.digitChar] d
  | snoc {text : List Char} {n : Nat} (front : Numeral text n) (d : Nat) (small : d < 10) :
      Numeral (text ++ [d.digitChar]) (10 * n + d)

theorem digit?_digitChar (d : Nat) (small : d < 10) : digit? d.digitChar = some d := by
  interval_cases d <;> rfl

namespace Numeral

/-- The usual decimal notation. -/
theorem toDigits (n : Nat) : Numeral (Nat.toDigits 10 n) n := by
  induction n using Nat.strongRecOn with
  | ind n ih =>
      by_cases small : n < 10
      · rw [Nat.toDigits_of_lt_base small]
        exact .digit n small
      · have front := (ih (n / 10) (by omega)).snoc (n % 10) (by omega)
        have value : 10 * (n / 10) + n % 10 = n := by omega
        rw [Nat.toDigits_of_base_le (by decide) (by omega)]
        rwa [value] at front

/-- A numeral starts with a digit. -/
theorem head {text : List Char} {n : Nat} (numeral : Numeral text n) :
    ∃ d < 10, ∃ rest, text = Nat.digitChar d :: rest := by
  induction numeral with
  | digit d small => exact ⟨d, small, [], rfl⟩
  | snoc front d small ih =>
      obtain ⟨first, isDigit, rest, rfl⟩ := ih
      exact ⟨first, isDigit, rest ++ [d.digitChar], rfl⟩

theorem digits {text : List Char} {n : Nat} (numeral : Numeral text n) :
    ∀ c ∈ text, (digit? c).isSome = true := by
  induction numeral with
  | digit d small =>
      intro c within
      rw [List.mem_singleton.mp within, digit?_digitChar d small, Option.isSome_some]
  | snoc front d small ih =>
      intro c within
      rcases List.mem_append.mp within with within | within
      · exact ih c within
      · rw [List.mem_singleton.mp within, digit?_digitChar d small, Option.isSome_some]

variable (limit : Nat) (overflow : IntegerError)

/-- One digit more is read unless the number passes the limit. -/
theorem readDigits_digitChar (value d : Nat) (isDigit : d < 10) (small : 10 * value + d ≤ limit)
    (rest : List Char) :
    readDigits limit overflow (d.digitChar :: rest) value =
      readDigits limit overflow rest (10 * value + d) := by
  have within : ¬ limit < value * 10 + d := by omega
  rw [readDigits, digit?_digitChar d isDigit]
  simp only [if_neg within]
  rw [Nat.mul_comm]

/-- The digits of a number that does not pass the limit are read, whatever follows them. -/
theorem readDigits {text : List Char} {n : Nat} (numeral : Numeral text n) (small : n ≤ limit)
    (rest : List Char) :
    readDigits limit overflow (text ++ rest) 0 = readDigits limit overflow rest n := by
  induction numeral generalizing rest with
  | digit d isDigit =>
      have read := readDigits_digitChar limit overflow 0 d isDigit (by omega) rest
      rwa [Nat.mul_zero, Nat.zero_add] at read
  | @snoc text n front d isDigit ih =>
      rw [List.append_assoc, ih (by omega), List.singleton_append,
        readDigits_digitChar limit overflow n d isDigit small]

theorem readDigits_all {text : List Char} {n : Nat} (numeral : Numeral text n)
    (small : n ≤ limit) : Text.readDigits limit overflow text 0 = .ok n := by
  have read := numeral.readDigits limit overflow small []
  rwa [List.append_nil] at read

/-- A number of 64 bits is read back, with zeros in front or without. -/
theorem nat64? {text : List Char} {n : Nat} (numeral : Numeral text n) (small : n ≤ maxNat64) :
    Text.nat64? (String.ofList text) = some n := by
  have read := numeral.readDigits_all maxNat64 .tooLarge small
  obtain ⟨d, isDigit, rest, rfl⟩ := numeral.head
  have unsigned : d.digitChar ≠ '+' ∧ d.digitChar ≠ '-' := by
    interval_cases d <;> decide
  rw [Text.nat64?, String.toList_ofList, readNat, read]
  · rfl
  all_goals simp [unsigned]

end Numeral

/-- What is read does not pass the limit. -/
theorem readDigits_le {limit : Nat} {overflow : IntegerError} {text : List Char} {value n : Nat}
    (small : value ≤ limit) (read : readDigits limit overflow text value = .ok n) : n ≤ limit := by
  induction text generalizing value with
  | nil =>
      cases read
      exact small
  | cons c text ih =>
      rw [readDigits] at read
      split at read
      · cases read
      · split at read
        · cases read
        · next within => exact ih (Nat.le_of_not_lt within) read

theorem readNat_le {limit : Nat} {text : List Char} {n : Nat} (read : readNat limit text = .ok n) :
    n ≤ limit := by
  unfold readNat at read
  split at read
  · cases read
  · cases read
  · cases read
  all_goals exact readDigits_le (Nat.zero_le _) read

/-- A number that is read has 64 bits. -/
theorem nat64?_le {text : String} {n : Nat} (read : nat64? text = some n) : n ≤ maxNat64 := by
  cases counted : readNat maxNat64 text.toList with
  | error error => simp [nat64?, counted, Except.toOption] at read
  | ok value =>
      rw [nat64?, counted] at read
      cases read
      exact readNat_le counted

/-! ### Integers -/

/-- Whether a text is a way to write an integer. -/
inductive Writes : List Char → Int → Prop
  | plain {text : List Char} {n : Nat} (numeral : Numeral text n) : Writes text n
  | plus {text : List Char} {n : Nat} (numeral : Numeral text n) : Writes ('+' :: text) n
  | minus {text : List Char} {n : Nat} (numeral : Numeral text n) : Writes ('-' :: text) (-n)

/-- A text without a sign is read as digits. -/
theorem readInt_unsigned (c : Char) (rest : List Char) (notPlus : c ≠ '+') (notMinus : c ≠ '-') :
    readInt (c :: rest) = (readDigits maxInt64 .tooLarge (c :: rest) 0).map Int.ofNat := by
  unfold readInt
  split <;> simp_all

/-- An integer of 64 bits is read back from every way to write it. -/
theorem Writes.readInt {text : List Char} {value : Int} (written : Writes text value)
    (least : -2 ^ 63 ≤ value) (most : value < 2 ^ 63) : readInt text = .ok value := by
  have limit : maxInt64 = 2 ^ 63 - 1 := rfl
  cases written with
  | @plain text n numeral =>
      have read := numeral.readDigits_all maxInt64 .tooLarge (by omega)
      obtain ⟨d, isDigit, rest, rfl⟩ := numeral.head
      have unsigned : d.digitChar ≠ '+' ∧ d.digitChar ≠ '-' := by
        interval_cases d <;> decide
      rw [readInt_unsigned _ _ unsigned.1 unsigned.2, read]
      rfl
  | @plus text n numeral =>
      have read := numeral.readDigits_all maxInt64 .tooLarge (by omega)
      obtain ⟨d, -, rest, rfl⟩ := numeral.head
      rw [Text.readInt, read]
      · rfl
      · simp
  | @minus text n numeral =>
      have read := numeral.readDigits_all (maxInt64 + 1) .tooSmall (by omega)
      obtain ⟨d, -, rest, rfl⟩ := numeral.head
      rw [Text.readInt, read]
      · rfl
      · simp

/-- No way to write an integer is empty. -/
theorem Writes.ne_nil {text : List Char} {value : Int} (written : Writes text value) :
    text ≠ [] := by
  cases written with
  | plain numeral =>
      obtain ⟨d, -, rest, rfl⟩ := numeral.head
      exact List.cons_ne_nil _ _
  | plus numeral => exact List.cons_ne_nil _ _
  | minus numeral => exact List.cons_ne_nil _ _

/-! ### Fields -/

theorem splitFirst_of_notMem {separator : Char} {text : List Char} (apart : separator ∉ text) :
    splitFirst separator text = (text, none) := by
  have whole : text.span (· != separator) = (text, []) := by
    rw [List.span_eq_takeWhile_dropWhile, List.takeWhile_eq_self_iff.mpr,
      List.dropWhile_eq_nil_iff.mpr]
    · intro c within
      exact bne_iff_ne.mpr (ne_of_mem_of_not_mem within apart)
    · intro c within
      exact bne_iff_ne.mpr (ne_of_mem_of_not_mem within apart)
  rw [splitFirst, whole]

/-- A text is split at the first separator. -/
theorem splitFirst_append {separator : Char} {front : List Char} (apart : separator ∉ front)
    (rest : List Char) :
    splitFirst separator (front ++ separator :: rest) = (front, some rest) := by
  have parts : (front ++ separator :: rest).span (· != separator) = (front, separator :: rest) := by
    have other : ∀ c ∈ front, (c != separator) = true := fun c within =>
      bne_iff_ne.mpr (ne_of_mem_of_not_mem within apart)
    rw [List.span_eq_takeWhile_dropWhile, List.takeWhile_append_of_pos other,
      List.dropWhile_append_of_pos other]
    simp
  rw [splitFirst, parts]

theorem splitFirst_eq_some {separator : Char} {text front rest : List Char} :
    splitFirst separator text = (front, some rest) ↔
      text = front ++ separator :: rest ∧ separator ∉ front := by
  constructor
  · intro found
    by_cases within : separator ∈ text
    · obtain ⟨before, after, rfl, apart⟩ := List.eq_append_cons_of_mem within
      rw [splitFirst_append apart] at found
      cases found
      exact ⟨rfl, apart⟩
    · rw [splitFirst_of_notMem within] at found
      cases found
  · rintro ⟨rfl, apart⟩
    exact splitFirst_append apart rest

/-- A text is split at the last separator. -/
theorem splitLast?_eq_some {separator : Char} {text front rest : List Char} :
    splitLast? separator text = some (front, rest) ↔
      text = front ++ separator :: rest ∧ separator ∉ rest := by
  have turned : text = front ++ separator :: rest ∧ separator ∉ rest ↔
      splitFirst separator text.reverse = (rest.reverse, some front.reverse) := by
    rw [splitFirst_eq_some, List.mem_reverse, List.reverse_eq_iff]
    simp
  rw [turned, splitLast?]
  cases parts : splitFirst separator text.reverse with
  | mk after before =>
      cases before with
      | none => simp
      | some before =>
          simp only [Option.some.injEq, Prod.mk.injEq, List.reverse_eq_iff]
          exact and_comm

theorem split_eq_splitOn (separator : Char) (text : List Char) :
    split separator text = text.splitOn separator := by
  induction text with
  | nil => rfl
  | cons c text ih =>
      have some := split_ne_nil separator text
      rw [split_cons, List.splitOn, List.splitOnP_cons_eq_if_modifyHead, ← List.splitOn, ← ih]
      by_cases same : c = separator
      · rw [if_pos same, if_pos (beq_iff_eq.mpr same)]
      · rw [if_neg same, if_neg (mt beq_iff_eq.mp same)]
        cases fields : split separator text with
        | nil => exact absurd fields some
        | cons field fields => rfl

/-- Fields without the separator are told apart. -/
theorem split_intercalate (separator : Char) (fields : List (List Char)) (some : fields ≠ [])
    (apart : ∀ field ∈ fields, separator ∉ field) :
    split separator ([separator].intercalate fields) = fields := by
  rw [split_eq_splitOn]
  exact List.splitOn_intercalate separator apart some

end SolTrace.Text
