import SolTrace.Proofs.Text.Numerals
import SolTrace.Source
/-!
The places of the bytes of a source file against its lines. The place of a byte is told by the bytes
before it, and the lines by the line breaks of the text; both tables count the same lines, and a
column is how far into its line a byte is.
-/
set_option autoImplicit false

namespace SolTrace

/-! ### Places -/

namespace LineColumn

/-- The place behind bytes, of which the first stands at a place. -/
def after (place : LineColumn) (bytes : List UInt8) : LineColumn :=
  bytes.foldl next place

/-- On an earlier line, or earlier on the same line. -/
def Before (place other : LineColumn) : Prop :=
  place.line < other.line ∨ (place.line = other.line ∧ place.column < other.column)

theorem Before.trans {first second third : LineColumn} (before : first.Before second)
    (beforeThird : second.Before third) : first.Before third := by
  simp only [Before] at *
  omega

theorem before_next (place : LineColumn) (byte : UInt8) : place.Before (place.next byte) := by
  unfold next
  split
  · exact .inl (Nat.lt_succ_self _)
  · exact .inr ⟨rfl, Nat.lt_succ_self _⟩

theorem after_append (place : LineColumn) (bytes others : List UInt8) :
    place.after (bytes ++ others) = (place.after bytes).after others :=
  List.foldl_append

/-- Bytes lead to a later place, if there are any. -/
theorem before_after (place : LineColumn) {bytes : List UInt8} (nonempty : bytes ≠ []) :
    place.Before (place.after bytes) := by
  induction bytes generalizing place with
  | nil => exact absurd rfl nonempty
  | cons byte bytes ih =>
      cases bytes with
      | nil => exact before_next place byte
      | cons other bytes =>
          exact (before_next place byte).trans (ih (place.next byte) (List.cons_ne_nil _ _))

theorem after_line (place : LineColumn) (bytes : List UInt8) :
    (place.after bytes).line = place.line + bytes.count 0x0A := by
  induction bytes generalizing place with
  | nil => rfl
  | cons byte bytes ih =>
      have step : place.after (byte :: bytes) = (place.next byte).after bytes := rfl
      rw [step, ih, next, List.count_cons]
      by_cases same : byte = 0x0A
      · rw [if_pos same, if_pos (beq_iff_eq.mpr same)]
        exact Nat.add_right_comm _ _ _
      · rw [if_neg same, if_neg (mt beq_iff_eq.mp same)]
        rfl

/-- Without a line break, bytes lead on along the line. -/
theorem after_of_notMem (place : LineColumn) {bytes : List UInt8} (unbroken : 0x0A ∉ bytes) :
    place.after bytes = ⟨place.line, place.column + bytes.length⟩ := by
  induction bytes generalizing place with
  | nil => rfl
  | cons byte bytes ih =>
      have differs : byte ≠ 0x0A := fun same => unbroken (same ▸ List.mem_cons_self)
      have rest : 0x0A ∉ bytes := fun within => unbroken (List.mem_cons_of_mem _ within)
      have step : place.after (byte :: bytes) = (place.next byte).after bytes := rfl
      rw [step, ih _ rest, next, if_neg differs, List.length_cons, Nat.add_assoc,
        Nat.add_comm 1]

end LineColumn

namespace Source

/-- Each byte gets the place behind the bytes before it. -/
theorem toList_placesFrom (place : LineColumn) (bytes : List UInt8) (found : Array LineColumn) :
    (placesFrom place bytes found).toList = found.toList ++
      (List.range bytes.length).map fun offset => place.after (bytes.take offset) := by
  induction bytes generalizing place found with
  | nil => exact (List.append_nil _).symm
  | cons byte bytes ih =>
      have step : placesFrom place (byte :: bytes) found =
          placesFrom (place.next byte) bytes (found.push place) := rfl
      rw [step, ih, Array.toList_push, List.append_assoc, List.length_cons,
        List.range_succ_eq_map, List.map_cons, List.map_map]
      rfl

theorem place?_ofText (name text : String) (offset : Nat) :
    (ofText name text).place? offset =
      if offset < (Text.utf8 text).length then
        some (LineColumn.after ⟨1, 1⟩ ((Text.utf8 text).take offset))
      else none := by
  have places := toList_placesFrom ⟨1, 1⟩ (Text.utf8 text) #[]
  rw [place?, ofText, ← Array.getElem?_toList, places, List.nil_append, List.getElem?_map]
  by_cases inside : offset < (Text.utf8 text).length
  · rw [if_pos inside, List.getElem?_range inside]
    rfl
  · rw [if_neg inside, List.getElem?_eq_none (by simpa using inside)]
    rfl

end Source

/-! ### Lines -/

namespace Text

/-- The bytes of a character are its number or belong to no other character of one byte. -/
theorem utf8EncodeChar_toNat {c : Char} {byte : UInt8} (within : byte ∈ String.utf8EncodeChar c) :
    byte.toNat = c.toNat ∨ 0x80 ≤ byte.toNat := by
  have number : c.val.toNat = c.toNat := rfl
  simp only [String.utf8EncodeChar, number] at within
  split at within
  · obtain rfl := List.mem_singleton.mp within
    rw [UInt8.toNat_ofNat']
    omega
  · right
    split at within
    · simp only [List.mem_cons, List.not_mem_nil, or_false] at within
      rcases within with rfl | rfl <;> rw [UInt8.toNat_ofNat'] <;> omega
    · split at within
      · simp only [List.mem_cons, List.not_mem_nil, or_false] at within
        rcases within with rfl | rfl | rfl <;> rw [UInt8.toNat_ofNat'] <;> omega
      · simp only [List.mem_cons, List.not_mem_nil, or_false] at within
        rcases within with rfl | rfl | rfl | rfl <;> rw [UInt8.toNat_ofNat'] <;> omega

theorem eq_newline_of_mem {c : Char} (broken : (0x0A : UInt8) ∈ String.utf8EncodeChar c) :
    c = '\n' := by
  rcases utf8EncodeChar_toNat broken with same | high
  · exact Char.toNat_inj.mp (show c.toNat = '\n'.toNat from same.symm)
  · exact absurd high (by decide)

/-- The bytes of the lines of a text. -/
def lineBytes (text : List Char) : List (List UInt8) :=
  (split '\n' text).map fun line => line.flatMap String.utf8EncodeChar

theorem lineBytes_ne_nil (text : List Char) : lineBytes text ≠ [] := by
  rw [lineBytes, Ne, List.map_eq_nil_iff]
  exact split_ne_nil '\n' text

theorem lineBytes_newline (text : List Char) : lineBytes ('\n' :: text) = [] :: lineBytes text := by
  rw [lineBytes, split_cons, if_pos rfl]
  rfl

/-- A character that is no line break belongs to the first line. -/
theorem lineBytes_cons {c : Char} (differs : c ≠ '\n') (text : List Char) :
    ∃ line lines, lineBytes text = line :: lines ∧
      lineBytes (c :: text) = (String.utf8EncodeChar c ++ line) :: lines := by
  rw [lineBytes, lineBytes, split_cons, if_neg differs]
  cases fields : split '\n' text with
  | nil => exact absurd fields (split_ne_nil '\n' text)
  | cons field fields =>
      refine ⟨_, _, rfl, ?_⟩
      rw [pushFirst, List.map_cons, List.flatMap_cons]

/-- The lines with line breaks between them are the text. -/
theorem intercalate_lineBytes (text : List Char) :
    [0x0A].intercalate (lineBytes text) = text.flatMap String.utf8EncodeChar := by
  induction text with
  | nil => rfl
  | cons c text ih =>
      rw [List.flatMap_cons, ← ih]
      by_cases same : c = '\n'
      · subst same
        rw [lineBytes_newline]
        cases rest : lineBytes text with
        | nil => exact absurd rest (lineBytes_ne_nil text)
        | cons line lines =>
            rw [List.intercalate_cons_cons]
            rfl
      · obtain ⟨line, lines, rest, pushed⟩ := lineBytes_cons same text
        rw [rest, pushed]
        cases lines with
        | nil => rw [List.intercalate_singleton, List.intercalate_singleton]
        | cons _ _ =>
            simp only [List.intercalate_cons_cons, List.append_assoc]

theorem unbroken_lineBytes (text : List Char) : ∀ line ∈ lineBytes text, 0x0A ∉ line := by
  induction text with
  | nil => exact List.forall_mem_singleton.mpr List.not_mem_nil
  | cons c text ih =>
      by_cases same : c = '\n'
      · subst same
        rw [lineBytes_newline]
        exact List.forall_mem_cons.mpr ⟨List.not_mem_nil, ih⟩
      · obtain ⟨line, lines, rest, pushed⟩ := lineBytes_cons same text
        rw [rest] at ih
        obtain ⟨first, others⟩ := List.forall_mem_cons.mp ih
        rw [pushed]
        refine List.forall_mem_cons.mpr ⟨fun within => ?_, others⟩
        rcases List.mem_append.mp within with within | within
        · exact same (eq_newline_of_mem within)
        · exact first within

end Text

/-! ### Joined lines -/

section

variable {lines : List (List UInt8)} (nonempty : lines ≠ [])
  (unbroken : ∀ line ∈ lines, 0x0A ∉ line)

include nonempty unbroken

/-- There is one line break less than there are lines. -/
theorem count_intercalate : ([0x0A].intercalate lines).count 0x0A + 1 = lines.length := by
  induction lines with
  | nil => exact absurd rfl nonempty
  | cons line lines ih =>
      obtain ⟨first, others⟩ := List.forall_mem_cons.mp unbroken
      cases lines with
      | nil => rw [List.intercalate_singleton, List.count_eq_zero.mpr first]; rfl
      | cons next lines =>
          have rest := ih (List.cons_ne_nil _ _) others
          rw [List.intercalate_cons_cons, List.count_append, List.count_append,
            List.count_eq_zero.mpr first, List.count_singleton_self, List.length_cons, ← rest]
          omega

/-- An offset in joined lines is some columns into one of them, and the byte there is the next one
of the line or the line break behind it. -/
theorem exists_line (first : Nat) {offset : Nat}
    (inside : offset < ([0x0A].intercalate lines).length) :
    ∃ k column bytes, lines[k]? = some bytes ∧ column ≤ bytes.length ∧
      LineColumn.after ⟨first, 1⟩ (([0x0A].intercalate lines).take offset) =
        ⟨first + k, column + 1⟩ ∧
      offset = ((lines.take k).map fun line => line.length + 1).sum + column ∧
      ([0x0A].intercalate lines)[offset]? = some (bytes[column]?.getD 0x0A) := by
  induction lines generalizing first offset with
  | nil => exact absurd rfl nonempty
  | cons line lines ih =>
      obtain ⟨whole, others⟩ := List.forall_mem_cons.mp unbroken
      have along (column : Nat) (short : column ≤ line.length) :
          LineColumn.after ⟨first, 1⟩ (line.take column) = ⟨first, column + 1⟩ := by
        rw [LineColumn.after_of_notMem _ fun within => whole (List.mem_of_mem_take within),
          List.length_take, Nat.min_eq_left short, Nat.add_comm 1]
      cases lines with
      | nil =>
          rw [List.intercalate_singleton] at inside ⊢
          refine ⟨0, offset, line, rfl, Nat.le_of_lt inside, along offset (Nat.le_of_lt inside),
            (Nat.zero_add _).symm, ?_⟩
          rw [List.getElem?_eq_getElem inside]
          rfl
      | cons next lines =>
          rw [List.intercalate_cons_cons, List.append_assoc, List.singleton_append] at inside ⊢
          by_cases short : offset ≤ line.length
          · refine ⟨0, offset, line, rfl, short, ?_, (Nat.zero_add _).symm, ?_⟩
            · rw [List.take_append_of_le_length short]
              exact along offset short
            · rcases Nat.eq_or_lt_of_le short with rfl | before
              · rw [List.getElem?_append_right (Nat.le_refl _), Nat.sub_self,
                  List.getElem?_eq_none (Nat.le_refl _)]
                rfl
              · rw [List.getElem?_append_left before, List.getElem?_eq_getElem before]
                rfl
          · -- The offset is behind the line break of the first line.
            obtain ⟨rest, rfl⟩ : ∃ rest, offset = line.length + (rest + 1) :=
              ⟨offset - (line.length + 1), by omega⟩
            rw [List.length_append, List.length_cons] at inside
            have behind : rest < ([0x0A].intercalate (next :: lines)).length := by omega
            obtain ⟨k, column, found, there, fits, place, sum, byte⟩ :=
              ih (List.cons_ne_nil _ _) others (first + 1) behind
            refine ⟨k + 1, column, found, there, fits, ?_, ?_, ?_⟩
            · have ended := along line.length (Nat.le_refl _)
              rw [List.take_length] at ended
              rw [List.take_length_add_append, List.take_succ_cons, LineColumn.after_append, ended]
              have numbered : first + 1 + k = first + (k + 1) := by omega
              rw [← numbered, ← place]
              rfl
            · rw [List.take_succ_cons, List.map_cons, List.sum_cons]
              omega
            · rw [List.getElem?_append_right (Nat.le_add_right _ _), Nat.add_sub_cancel_left,
                List.getElem?_cons_succ, ← byte]

end

/-! ### Offsets, lines and columns -/

namespace Source

/-- A place in a source file that an offset stands for: so many line breaks are before it, and so
many bytes of its line. -/
structure Stands (source : Source) (bytes : List UInt8) (offset : Nat) (place : LineColumn)
    (line : String) : Prop where
  column_pos : 1 ≤ place.column
  line_eq : place.line = (bytes.take offset).count 0x0A + 1
  found : source.line? place.line = some line
  offset_eq : offset = ((source.lines.toList.take (place.line - 1)).map
    fun line => (Text.utf8 line).length + 1).sum + (place.column - 1)
  byte : bytes[offset]? ≠ some 0x0A → (Text.utf8 line)[place.column - 1]? = bytes[offset]?
  lineBreak : bytes[offset]? = some 0x0A → place.column - 1 = (Text.utf8 line).length

theorem lines_ofText (name text : String) :
    (ofText name text).lines.toList.map Text.utf8 = Text.lineBytes text.toList := by
  rw [ofText, List.map_map, Text.lineBytes]
  refine List.map_congr_left fun line _ => ?_
  simp only [Function.comp_apply, Text.utf8, String.toList_ofList]

theorem utf8_eq_intercalate (text : String) :
    Text.utf8 text = [0x0A].intercalate (Text.lineBytes text.toList) :=
  (Text.intercalate_lineBytes text.toList).symm

/-- Every byte has a place, which its offset stands for. -/
theorem exists_stands (name text : String) {offset : Nat}
    (inside : offset < (Text.utf8 text).length) :
    ∃ place line, (ofText name text).place? offset = some place ∧
      Stands (ofText name text) (Text.utf8 text) offset place line := by
  have unbroken := Text.unbroken_lineBytes text.toList
  have joined := utf8_eq_intercalate text
  have within := inside
  rw [joined] at within
  obtain ⟨k, column, bytes, there, fits, place, sum, byte⟩ :=
    exists_line (Text.lineBytes_ne_nil text.toList) unbroken 1 within
  rw [← joined] at place byte
  have whole : 0x0A ∉ bytes := unbroken bytes (List.mem_of_getElem? there)
  rw [← lines_ofText name, List.getElem?_map, Option.map_eq_some_iff] at there
  obtain ⟨line, found, rfl⟩ := there
  have counted := LineColumn.after_line ⟨1, 1⟩ ((Text.utf8 text).take offset)
  rw [place] at counted
  refine ⟨⟨1 + k, column + 1⟩, line, by rw [place?_ofText, if_pos inside, place], ?_⟩
  exact {
    column_pos := Nat.le_add_left 1 column
    line_eq := by rw [counted, Nat.add_comm]
    found := by
      rw [Nat.add_comm]
      rwa [Array.getElem?_toList] at found
    offset_eq := by
      rw [← lines_ofText name, ← List.map_take, List.map_map] at sum
      rw [Nat.add_sub_cancel_left, Nat.add_sub_cancel]
      exact sum
    byte := by
      intro differs
      rw [byte] at differs ⊢
      rw [Nat.add_sub_cancel]
      cases there : (Text.utf8 line)[column]? with
      | some _ => rfl
      | none => exact absurd (by rw [there]; rfl) differs
    lineBreak := by
      intro same
      rw [byte] at same
      rw [Nat.add_sub_cancel]
      rcases Nat.eq_or_lt_of_le fits with last | before
      · exact last
      · -- A byte of the line itself is no line break.
        rw [List.getElem?_eq_getElem before, Option.getD_some, Option.some.injEq] at same
        exact absurd (same ▸ List.getElem_mem before) whole }

/-- Later bytes have later places. -/
theorem place?_before {name text : String} {offset other : Nat} {place otherPlace : LineColumn}
    (before : offset < other) (there : (ofText name text).place? offset = some place)
    (otherThere : (ofText name text).place? other = some otherPlace) :
    place.Before otherPlace := by
  rw [place?_ofText] at there otherThere
  split at otherThere
  · next inside =>
      rw [if_pos (Nat.lt_trans before inside)] at there
      cases there
      cases otherThere
      have between : ((Text.utf8 text).take other).drop offset ≠ [] := by
        rw [Ne, List.drop_eq_nil_iff, List.length_take]
        omega
      have split := List.take_append_drop offset ((Text.utf8 text).take other)
      rw [List.take_take, Nat.min_eq_left (Nat.le_of_lt before)] at split
      rw [← split, LineColumn.after_append]
      exact LineColumn.before_after _ between
  · cases otherThere

/-- The table of places and the lines of a source file agree. -/
theorem ofText_places (name text : String) :
    (∀ offset < (Text.utf8 text).length, ∃ place line,
      (ofText name text).place? offset = some place ∧
        Stands (ofText name text) (Text.utf8 text) offset place line) ∧
    (∀ offset, (Text.utf8 text).length ≤ offset → (ofText name text).place? offset = none) ∧
    (∀ offset other place otherPlace, offset < other →
      (ofText name text).place? offset = some place →
        (ofText name text).place? other = some otherPlace → place.Before otherPlace) ∧
    (ofText name text).lines.size = (Text.utf8 text).count 0x0A + 1 := by
  refine ⟨fun offset inside => exists_stands name text inside, fun offset outside => ?_,
    fun offset other place otherPlace => place?_before, ?_⟩
  · rw [place?_ofText, if_neg (Nat.not_lt.mpr outside)]
  · have lines := congrArg List.length (lines_ofText name text)
    rw [List.length_map, Array.length_toList] at lines
    rw [lines, utf8_eq_intercalate, count_intercalate (Text.lineBytes_ne_nil text.toList)
      (Text.unbroken_lineBytes text.toList)]

end Source

end SolTrace
