import SolTrace.Proofs.Text.Numerals
import SolTrace.SourceMap
/-!
The compressed form of source maps. An entry may leave a field empty that it shares with the entry
before, and leave out fields at its end that are empty. However much of a list of entries is left
out in this way, reading gives the list back.
-/
set_option autoImplicit false

namespace SolTrace.SourceMap

/-! ### Compressed entries -/

/-- Whether a field gives a value after the value `last`: an empty field repeats it. -/
def Gives {α : Type} (writes : List Char → α → Prop) (last value : α) (field : List Char) : Prop :=
  (field = [] ∧ value = last) ∨ writes field value

/-- Whether fields give an entry after the entry `last`. Fields that are missing count as empty,
and a fifth one, which is for the depth of modifiers, may be any text. -/
structure FieldsGive (last location : SourceLocation) (fields : List (List Char)) : Prop where
  some : fields ≠ []
  few : fields.length ≤ 5
  apart : ∀ field ∈ fields, ':' ∉ field ∧ ';' ∉ field
  offset : Gives Text.Writes last.offset location.offset (fields[0]?.getD [])
  length : Gives Text.Writes last.length location.length (fields[1]?.getD [])
  fileIndex : Gives Text.Writes last.fileIndex location.fileIndex (fields[2]?.getD [])
  jump : Gives (fun field jump => field = jump.text.toList) last.jump location.jump
    (fields[3]?.getD [])

/-- Whether texts are compressed entries of the list after the entry `last`. Each entry counts as
the one before the next, whatever file it names. -/
inductive Compressed : SourceLocation → List SourceLocation → List (List Char) → Prop
  | nil (last : SourceLocation) : Compressed last [] []
  | cons {last location : SourceLocation} {fields : List (List Char)}
      {locations : List SourceLocation} {entries : List (List Char)}
      (give : FieldsGive last location fields) (rest : Compressed location locations entries) :
      Compressed last (location :: locations) ([':'].intercalate fields :: entries)

/-- Whether a text is a compressed form of a list of entries. -/
def Compresses (text : String) (locations : List SourceLocation) : Prop :=
  ∃ entries, Compressed .initial locations entries ∧ text.toList = [';'].intercalate entries

/-- Whether the fields of an entry are in the range of 64-bit numbers. -/
structure InRange (location : SourceLocation) : Prop where
  offset : location.offset < 2 ^ 63
  length : location.length < 2 ^ 63
  least : -2 ^ 63 ≤ location.fileIndex
  most : location.fileIndex < 2 ^ 63

instance (location : SourceLocation) : Decidable (InRange location) :=
  decidable_of_iff (location.offset < 2 ^ 63 ∧ location.length < 2 ^ 63 ∧
      -2 ^ 63 ≤ location.fileIndex ∧ location.fileIndex < 2 ^ 63)
    ⟨fun ⟨offset, length, least, most⟩ => ⟨offset, length, least, most⟩,
      fun range => ⟨range.offset, range.length, range.least, range.most⟩⟩

/-! ### Reading -/

theorem readNumber_gives {fault : SourceMapFault} {last value : Int} {field : List Char}
    (give : Gives Text.Writes last value field) (least : -2 ^ 63 ≤ value) (most : value < 2 ^ 63) :
    readNumber fault last field = .ok value := by
  rcases give with ⟨rfl, rfl⟩ | written
  · rfl
  · have some := written.ne_nil
    rw [readNumber, written.readInt least most]
    · rfl
    · exact some

theorem readJump_gives {last jump : JumpType} {field : List Char}
    (give : Gives (fun field jump => field = jump.text.toList) last jump field) :
    readJump last field = .ok jump := by
  rcases give with ⟨rfl, rfl⟩ | rfl
  · rfl
  · cases jump <;> rfl

theorem readFields_gives {last location : SourceLocation} {fields : List (List Char)}
    (give : FieldsGive last location fields) (range : InRange location) :
    readFields last fields = .ok location := by
  obtain ⟨offset, length, least, most⟩ := range
  have lowest (n : Nat) : -2 ^ 63 ≤ (n : Int) := by omega
  simp only [readFields, readNumber_gives give.offset (lowest _) (by omega),
    readNumber_gives give.length (lowest _) (by omega),
    readNumber_gives give.fileIndex least most, readJump_gives give.jump, ok_bind]
  rfl

theorem readEntry_gives {last location : SourceLocation} {fields : List (List Char)}
    (give : FieldsGive last location fields) (range : InRange location) :
    readEntry last ([':'].intercalate fields) = .ok location := by
  have told := Text.split_intercalate ':' fields give.some fun field within =>
    (give.apart field within).1
  rw [readEntry, told, readFields_gives give range]
  rfl

/-- The entries of a compressed list are read one after the other, each after the one before. -/
theorem Compressed.readEntries {last : SourceLocation} {locations : List SourceLocation}
    {entries : List (List Char)} (compressed : Compressed last locations entries)
    (range : ∀ location ∈ locations, InRange location) :
    readEntries last entries = .ok locations := by
  induction compressed with
  | nil last => rfl
  | @cons last location fields locations entries give rest ih =>
      have first := readEntry_gives give (range location List.mem_cons_self)
      have others := ih fun other within => range other (List.mem_cons_of_mem _ within)
      rw [SourceMap.readEntries, first, ok_bind, others]
      rfl

/-! ### The text -/

theorem mem_intercalate {c separator : Char} {fields : List (List Char)}
    (within : c ∈ [separator].intercalate fields) :
    c = separator ∨ ∃ field ∈ fields, c ∈ field := by
  induction fields with
  | nil => cases within
  | cons field fields ih =>
      cases fields with
      | nil =>
          rw [List.intercalate_singleton] at within
          exact .inr ⟨field, List.mem_cons_self, within⟩
      | cons next fields =>
          rw [List.intercalate_cons_cons, List.append_assoc, List.singleton_append,
            List.mem_append, List.mem_cons] at within
          rcases within with first | between | later
          · exact .inr ⟨field, List.mem_cons_self, first⟩
          · exact .inl between
          · exact (ih later).imp_right fun ⟨other, member, inside⟩ =>
              ⟨other, List.mem_cons_of_mem field member, inside⟩

/-- No compressed entry has a semicolon in it. -/
theorem Compressed.apart {last : SourceLocation} {locations : List SourceLocation}
    {entries : List (List Char)} (compressed : Compressed last locations entries) :
    ∀ entry ∈ entries, ';' ∉ entry := by
  induction compressed with
  | nil last => exact fun entry none => absurd none List.not_mem_nil
  | cons give rest ih =>
      intro entry member inside
      rcases List.mem_cons.mp member with rfl | member
      · rcases mem_intercalate inside with colon | ⟨field, within, inside⟩
        · exact absurd colon (by decide)
        · exact (give.apart field within).2 inside
      · exact ih entry member inside

/-- Reading undoes every compression: a compressed form of a list of entries is read as exactly
that list, where the entries of no file have no result. -/
theorem parse_compressed {text : String} {locations : List SourceLocation}
    (nonempty : locations ≠ []) (range : ∀ location ∈ locations, InRange location)
    (compresses : Compresses text locations) :
    parse text = .ok (locations.map fun location =>
      if location.fileIndex = -1 then none else some location) := by
  obtain ⟨entries, compressed, written⟩ := compresses
  have entriesSome : entries ≠ [] := by
    cases compressed with
    | nil last => exact absurd rfl nonempty
    | cons give rest => exact List.cons_ne_nil _ _
  rw [parse, written, Text.split_intercalate ';' entries entriesSome compressed.apart,
    compressed.readEntries range]
  rfl

/-- An entry in full, one that drops all of its fields, one with the depth of modifiers, one of no
file, and one that takes its offset, length and jump from there. -/
theorem parse_compressed_elided :
    Compresses "10:5:0:-;;+20:::i:2;7::-1;::0"
        [⟨10, 5, 0, .regular⟩, ⟨10, 5, 0, .regular⟩, ⟨20, 5, 0, .into⟩, ⟨7, 5, -1, .into⟩,
          ⟨7, 5, 0, .into⟩] ∧
      parse "10:5:0:-;;+20:::i:2;7::-1;::0" =
        .ok [some ⟨10, 5, 0, .regular⟩, some ⟨10, 5, 0, .regular⟩, some ⟨20, 5, 0, .into⟩, none,
          some ⟨7, 5, 0, .into⟩] := by
  have full : FieldsGive .initial ⟨10, 5, 0, .regular⟩ [['1', '0'], ['5'], ['0'], ['-']] :=
    ⟨by decide, by decide, by decide, .inr (.plain (.toDigits 10)), .inr (.plain (.toDigits 5)),
      .inr (.plain (.toDigits 0)), .inr rfl⟩
  have same : FieldsGive ⟨10, 5, 0, .regular⟩ ⟨10, 5, 0, .regular⟩ [[]] :=
    ⟨by decide, by decide, by decide, .inl ⟨rfl, rfl⟩, .inl ⟨rfl, rfl⟩, .inl ⟨rfl, rfl⟩,
      .inl ⟨rfl, rfl⟩⟩
  have deep : FieldsGive ⟨10, 5, 0, .regular⟩ ⟨20, 5, 0, .into⟩
      [['+', '2', '0'], [], [], ['i'], ['2']] :=
    ⟨by decide, by decide, by decide, .inr (.plus (.toDigits 20)), .inl ⟨rfl, rfl⟩,
      .inl ⟨rfl, rfl⟩, .inr rfl⟩
  have unmapped : FieldsGive ⟨20, 5, 0, .into⟩ ⟨7, 5, -1, .into⟩ [['7'], [], ['-', '1']] :=
    ⟨by decide, by decide, by decide, .inr (.plain (.toDigits 7)), .inl ⟨rfl, rfl⟩,
      .inr (.minus (.toDigits 1)), .inl ⟨rfl, rfl⟩⟩
  have resumed : FieldsGive ⟨7, 5, -1, .into⟩ ⟨7, 5, 0, .into⟩ [[], [], ['0']] :=
    ⟨by decide, by decide, by decide, .inl ⟨rfl, rfl⟩, .inl ⟨rfl, rfl⟩,
      .inr (.plain (.toDigits 0)), .inl ⟨rfl, rfl⟩⟩
  have compresses : Compresses "10:5:0:-;;+20:::i:2;7::-1;::0" _ :=
    ⟨_, .cons full (.cons same (.cons deep (.cons unmapped (.cons resumed (.nil _))))), rfl⟩
  exact ⟨compresses, parse_compressed (by decide) (by decide) compresses⟩

end SolTrace.SourceMap
