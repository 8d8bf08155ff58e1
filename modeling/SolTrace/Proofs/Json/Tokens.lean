import SolTrace.Json.Printer
import SolTrace.Json.Token
import SolTrace.Proofs.Text.Numerals
/-!
The tokens of JSON text. A string that is written with its escapes is read back up to the closing
quote, and a number is read up to what may follow it in a document.
-/
set_option autoImplicit false

namespace SolTrace.Json

/-! ### Strings -/

theorem hexDigit?_digitChar (d : Nat) (small : d < 16) : hexDigit? (Hex.digitChar d) = some d := by
  interval_cases d <;> rfl

theorem hexDigit?_zero : hexDigit? '0' = some 0 := rfl

/-- The escape of a control character. -/
theorem takeEscape_byte (n : Nat) (small : n < 0x20) (rest : List Char) :
    takeEscape ('0' :: '0' :: Hex.encodeByte (UInt8.ofNat n) ++ rest) =
      some (Char.ofNat n, rest) := by
  have byte : (UInt8.ofNat n).toNat = n := by
    rw [UInt8.toNat_ofNat']
    omega
  have unit : takeUnit ('0' :: '0' :: Hex.encodeByte (UInt8.ofNat n) ++ rest) = some (n, rest) := by
    simp only [Hex.encodeByte, byte, List.cons_append, List.nil_append, takeUnit, hexDigit?_zero,
      hexDigit?_digitChar (n / 16) (by omega), hexDigit?_digitChar (n % 16) (by omega)]
    congr 2
    omega
  simp only [takeEscape, unit]
  rw [if_neg (by omega), if_neg (by omega)]

/-- A character is read back from the way that it is written in a string. -/
theorem takeString_escapeChar (c : Char) (fuel : Nat) (read rest : List Char) :
    takeString (fuel + 1) read (escapeChar c ++ rest) = takeString fuel (c :: read) rest := by
  unfold escapeChar
  split
  case h_8 _ quote backslash _ _ _ _ _ =>
    split
    · next control =>
        have escape := takeEscape_byte c.toNat control rest
        rw [Char.ofNat_toNat] at escape
        simp only [List.cons_append] at escape ⊢
        rw [takeString, escape]
    · next visible =>
        rw [List.singleton_append, takeString]
        · rw [if_neg]
          rintro (control | same)
          · exact visible control
          · exact backslash same
        · exact quote
        · exact fun _ same _ => backslash same
        · exact fun _ _ same _ => backslash same
  all_goals
    rw [List.cons_append, List.singleton_append, takeString]
    · rfl
    · decide

theorem takeString_escaped (text : List Char) (fuel : Nat) (enough : text.length < fuel)
    (read rest : List Char) :
    takeString fuel read (text.flatMap escapeChar ++ '"' :: rest) =
      some (String.ofList (read.reverse ++ text), rest) := by
  induction text generalizing fuel read with
  | nil =>
      obtain ⟨fuel, rfl⟩ := Nat.exists_eq_add_one.mpr enough
      simp [takeString]
  | cons c text ih =>
      obtain ⟨fuel, rfl⟩ := Nat.exists_eq_add_one.mpr (Nat.zero_lt_of_lt enough)
      have next := ih fuel (by simpa using enough) (c :: read)
      rw [List.flatMap_cons, List.append_assoc, takeString_escapeChar, next]
      simp

theorem toList_quote (text : String) :
    (quote text).toList = '"' :: (text.toList.flatMap escapeChar ++ ['"']) := by
  simp [quote]

theorem length_lt_quote (text : String) : text.toList.length < (quote text).toList.length := by
  have letters : text.toList.length ≤ (text.toList.flatMap escapeChar).length := by
    induction text.toList with
    | nil => exact Nat.zero_le _
    | cons c rest ih =>
        have one : 0 < (escapeChar c).length := by
          unfold escapeChar
          split
          case h_8 => split <;> exact Nat.zero_lt_succ _
          all_goals exact Nat.zero_lt_succ _
        rw [List.flatMap_cons, List.length_append, List.length_cons]
        omega
  rw [toList_quote, List.length_cons, List.length_append]
  omega

/-- A string is read back up to its closing quote. -/
theorem takeQuoted_quote (text : String) (fuel : Nat) (enough : text.toList.length < fuel)
    (rest : List Char) : takeQuoted fuel ((quote text).toList ++ rest) = some (text, rest) := by
  have read := takeString_escaped text.toList fuel enough [] rest
  rw [List.reverse_nil, List.nil_append, String.ofList_toList] at read
  rw [toList_quote, List.cons_append, List.append_assoc, List.singleton_append, takeQuoted, read]

/-! ### Numbers -/

/-- What may follow a value in a document: its end, or a character that separates or closes. -/
def Ends (rest : List Char) : Prop :=
  ∀ c ∈ rest.head?, c = ',' ∨ c = ']' ∨ c = '}'

/-- Whether a text is a number as JSON has it. -/
def IsNumber (text : String) : Prop :=
  takeNumber text.toList = some (text, [])

instance (text : String) : Decidable (IsNumber text) :=
  inferInstanceAs (Decidable (_ = _))

theorem Ends.separator (rest : List Char) : Ends (',' :: rest) := by
  simp [Ends]

theorem Ends.bracket (rest : List Char) : Ends (']' :: rest) := by
  simp [Ends]

theorem Ends.brace (rest : List Char) : Ends ('}' :: rest) := by
  simp [Ends]

theorem Ends.nil : Ends [] := by
  simp [Ends]

/-- What may follow a value goes on with none of the characters of a number. -/
theorem Ends.notNumeric {rest : List Char} (ends : Ends rest) :
    ∀ c ∈ rest.head?, c.isDigit = false ∧ c ≠ '.' ∧ c ≠ 'e' ∧ c ≠ 'E' ∧ c ≠ '+' ∧ c ≠ '-' := by
  intro c first
  rcases ends c first with rfl | rfl | rfl <;> decide

theorem takeDigits_cons (c : Char) (text : List Char) :
    takeDigits (c :: text) =
      if c.isDigit then (c :: (takeDigits text).1, (takeDigits text).2) else ([], c :: text) := by
  simp only [takeDigits, List.span_eq_takeWhile_dropWhile, List.takeWhile_cons, List.dropWhile_cons]
  split <;> rfl

theorem takeDigits_append {rest : List Char} (ends : Ends rest) (text : List Char) :
    takeDigits (text ++ rest) = ((takeDigits text).1, (takeDigits text).2 ++ rest) := by
  induction text with
  | nil =>
      cases rest with
      | nil => rfl
      | cons c rest =>
          have noDigit := (ends.notNumeric c rfl).1
          rw [List.nil_append, takeDigits_cons, noDigit]
          rfl
  | cons c text ih =>
      rw [List.cons_append, takeDigits_cons, takeDigits_cons, ih]
      split <;> rfl

theorem takeFraction_of_ne {c : Char} (other : c ≠ '.') (text : List Char) :
    takeFraction (c :: text) = ([], c :: text) := by
  rw [takeFraction]
  rintro rest ⟨⟩
  exact other rfl

theorem takeFraction_append {rest : List Char} (ends : Ends rest) (text : List Char) :
    takeFraction (text ++ rest) = ((takeFraction text).1, (takeFraction text).2 ++ rest) := by
  cases text with
  | nil =>
      cases rest with
      | nil => rfl
      | cons c rest => exact takeFraction_of_ne (ends.notNumeric c rfl).2.1 rest
  | cons c text =>
      by_cases point : c = '.'
      · subst point
        rw [List.cons_append, takeFraction, takeFraction, takeDigits_append ends]
        cases takeDigits text with
        | mk digits left => cases digits <;> rfl
      · rw [List.cons_append, takeFraction_of_ne point, takeFraction_of_ne point, List.cons_append]

/-- The sign of an exponent, if there is one. -/
def takeSign : List Char → List Char × List Char
  | '+' :: text => (['+'], text)
  | '-' :: text => (['-'], text)
  | text => ([], text)

theorem takeSign_of_ne {c : Char} (notPlus : c ≠ '+') (notMinus : c ≠ '-') (text : List Char) :
    takeSign (c :: text) = ([], c :: text) := by
  rw [takeSign]
  · rintro rest ⟨⟩
    exact notPlus rfl
  · rintro rest ⟨⟩
    exact notMinus rfl

theorem takeSign_append {rest : List Char} (ends : Ends rest) (text : List Char) :
    takeSign (text ++ rest) = ((takeSign text).1, (takeSign text).2 ++ rest) := by
  cases text with
  | nil =>
      cases rest with
      | nil => rfl
      | cons c rest =>
          obtain ⟨-, -, -, -, notPlus, notMinus⟩ := ends.notNumeric c rfl
          exact takeSign_of_ne notPlus notMinus rest
  | cons c text =>
      by_cases plus : c = '+'
      · subst plus
        rfl
      · by_cases minus : c = '-'
        · subst minus
          rfl
        · rw [List.cons_append, takeSign_of_ne plus minus, takeSign_of_ne plus minus,
            List.cons_append]

theorem takeExponent_cons (e : Char) (text : List Char) :
    takeExponent (e :: text) =
      if e = 'e' ∨ e = 'E' then
        match takeDigits (takeSign text).2 with
        | ([], _) => ([], e :: text)
        | (digits, left) => (e :: (takeSign text).1 ++ digits, left)
      else ([], e :: text) := by
  rw [takeExponent.eq_def]
  rfl

theorem takeExponent_append {rest : List Char} (ends : Ends rest) (text : List Char) :
    takeExponent (text ++ rest) = ((takeExponent text).1, (takeExponent text).2 ++ rest) := by
  cases text with
  | nil =>
      cases rest with
      | nil => rfl
      | cons c rest =>
          obtain ⟨-, -, small, capital, -⟩ := ends.notNumeric c rfl
          rw [List.nil_append, takeExponent_cons, if_neg (by simp [small, capital])]
          rfl
  | cons e text =>
      rw [List.cons_append, takeExponent_cons, takeExponent_cons, takeSign_append ends,
        takeDigits_append ends]
      split
      · cases takeDigits (takeSign text).2 with
        | mk digits left => cases digits <;> rfl
      · rfl

/-- An integer that does not start with a zero is all the digits. -/
theorem takeInteger_of_ne {text : List Char} (other : ∀ rest, text ≠ '0' :: rest) :
    takeInteger text =
      match takeDigits text with
      | ([], _) => none
      | read => some read := by
  unfold takeInteger
  split
  · next rest => exact absurd rfl (other rest)
  · rfl

theorem takeInteger_append {rest : List Char} (ends : Ends rest) {text digits left : List Char}
    (read : takeInteger text = some (digits, left)) :
    takeInteger (text ++ rest) = some (digits, left ++ rest) := by
  cases text with
  | nil => cases read
  | cons c text =>
      by_cases zero : c = '0'
      · subst zero
        cases read
        rfl
      · have other : ∀ after rest, c :: after ≠ '0' :: rest := fun after rest same =>
          zero (List.cons.inj same).1
        rw [takeInteger_of_ne (other text)] at read
        rw [List.cons_append, takeInteger_of_ne (other (text ++ rest)), ← List.cons_append,
          takeDigits_append ends]
        cases taken : takeDigits (c :: text) with
        | mk found after =>
            rw [taken] at read
            cases found with
            | nil => cases read
            | cons first found =>
                cases read
                rfl

/-- The number in a text after its sign. -/
def takeUnsigned (sign text : List Char) : Option (String × List Char) :=
  match takeInteger text with
  | none => none
  | some (integer, rest) =>
      let (fraction, rest) := takeFraction rest
      let (exponent, rest) := takeExponent rest
      some (String.ofList (sign ++ integer ++ fraction ++ exponent), rest)

/-- The sign of a number, if there is one. -/
def takeMinus : List Char → List Char × List Char
  | '-' :: text => (['-'], text)
  | text => ([], text)

theorem takeMinus_of_ne {c : Char} (notMinus : c ≠ '-') (text : List Char) :
    takeMinus (c :: text) = ([], c :: text) := by
  rw [takeMinus]
  rintro rest ⟨⟩
  exact notMinus rfl

theorem takeNumber_eq (text : List Char) :
    takeNumber text = takeUnsigned (takeMinus text).1 (takeMinus text).2 := rfl

theorem takeUnsigned_append {rest : List Char} (ends : Ends rest) {sign text left : List Char}
    {number : String} (read : takeUnsigned sign text = some (number, left)) :
    takeUnsigned sign (text ++ rest) = some (number, left ++ rest) := by
  unfold takeUnsigned at read ⊢
  cases taken : takeInteger text with
  | none =>
      rw [taken] at read
      cases read
  | some pair =>
      rw [taken] at read
      rw [takeInteger_append ends taken]
      simp only [takeFraction_append ends, takeExponent_append ends]
      cases read
      rfl

/-- A number is read up to what may follow it. -/
theorem takeNumber_append {rest : List Char} (ends : Ends rest) {text left : List Char}
    {number : String} (read : takeNumber text = some (number, left)) :
    takeNumber (text ++ rest) = some (number, left ++ rest) := by
  cases text with
  | nil => cases read
  | cons c text =>
      rw [takeNumber_eq] at read
      rw [List.cons_append, takeNumber_eq]
      by_cases minus : c = '-'
      · subst minus
        exact takeUnsigned_append ends read
      · rw [takeMinus_of_ne minus] at read
        rw [takeMinus_of_ne minus]
        exact takeUnsigned_append ends read

/-- A number starts with its sign or a digit. -/
theorem IsNumber.head {text : String} (number : IsNumber text) :
    ∃ c rest, text.toList = c :: rest ∧ (c = '-' ∨ c.isDigit) := by
  unfold IsNumber at number
  cases letters : text.toList with
  | nil =>
      rw [letters] at number
      cases number
  | cons c rest =>
      refine ⟨c, rest, rfl, ?_⟩
      by_contra neither
      obtain ⟨notMinus, noDigit⟩ := not_or.mp neither
      have notZero : ∀ rest', c :: rest ≠ '0' :: rest' := by
        rintro rest' ⟨⟩
        exact noDigit (by decide)
      rw [letters, takeNumber_eq, takeMinus_of_ne notMinus, takeUnsigned,
        takeInteger_of_ne notZero, takeDigits_cons, if_neg noDigit] at number
      cases number

theorem takeDigits_of_digits {text : List Char} (digits : ∀ c ∈ text, c.isDigit = true) :
    takeDigits text = (text, []) := by
  rw [takeDigits, List.span_eq_takeWhile_dropWhile, List.takeWhile_eq_self_iff.mpr digits,
    List.dropWhile_eq_nil_iff.mpr digits]

/-- The usual notation of a number has no zeros in front. -/
theorem toDigits_head {n : Nat} (positive : 0 < n) (rest : List Char) :
    Nat.toDigits 10 n ≠ '0' :: rest := by
  induction n using Nat.strongRecOn generalizing rest with
  | ind n ih =>
      by_cases small : n < 10
      · rw [Nat.toDigits_of_lt_base small]
        interval_cases n <;> simp [Nat.digitChar]
      · rw [Nat.toDigits_of_base_le (by decide) (by omega)]
        obtain ⟨c, digits, front⟩ := List.exists_cons_of_ne_nil (Nat.toDigits_ne_nil (n := n / 10))
        have notZero := ih (n / 10) (by omega) (by omega)
        rw [front] at notZero ⊢
        rintro ⟨⟩
        exact notZero digits rfl

/-- A natural number is written as JSON has numbers. -/
theorem isNumber_toString (n : Nat) : IsNumber (toString n) := by
  have text : (toString n).toList = Nat.toDigits 10 n := Nat.toList_repr
  have digits : ∀ c ∈ Nat.toDigits 10 n, c.isDigit = true := fun c within =>
    Nat.isDigit_of_mem_toDigits (by decide) (by decide) within
  rcases Nat.eq_zero_or_pos n with rfl | positive
  · decide
  · obtain ⟨c, rest, letters⟩ := List.exists_cons_of_ne_nil (Nat.toDigits_ne_nil (n := n) (b := 10))
    have first := digits c (by rw [letters]; exact List.mem_cons_self)
    have notMinus : c ≠ '-' := by
      rintro rfl
      exact absurd first (by decide)
    have unsigned : takeMinus (c :: rest) = ([], c :: rest) := takeMinus_of_ne notMinus rest
    have whole : takeInteger (c :: rest) = some (c :: rest, []) := by
      have notZero := toDigits_head positive
      rw [letters] at notZero digits
      rw [takeInteger_of_ne notZero, takeDigits_of_digits digits]
    rw [IsNumber, text, takeNumber_eq, letters, unsigned, takeUnsigned, whole]
    show some (String.ofList ([] ++ (c :: rest) ++ [] ++ []), []) = _
    rw [List.append_nil, List.append_nil, List.nil_append, ← letters, ← text, String.ofList_toList]

end SolTrace.Json
