import SolTrace.Checkpoint
import SolTrace.Proofs.SourceMap.Compression
/-!
The positions of source map entries. All that is read from a source map is in the range of 64-bit
numbers, so the text of an entry's position is read back: the range of a node with that text, and
the number of its file, are those of the entry.
-/
set_option autoImplicit false

namespace SolTrace

/-! ### The range of what is read -/

namespace Text

/-- An integer that is read has 64 bits. -/
theorem readInt_range {text : List Char} {value : Int} (read : readInt text = .ok value) :
    -2 ^ 63 ≤ value ∧ value < 2 ^ 63 := by
  have unsigned : ∀ {digits : List Char},
      (readDigits maxInt64 .tooLarge digits 0).map Int.ofNat = .ok value →
        -2 ^ 63 ≤ value ∧ value < 2 ^ 63 := by
    intro digits read
    obtain ⟨n, counted, rfl⟩ := map_eq_ok.mp read
    have small : n ≤ 2 ^ 63 - 1 := readDigits_le (Nat.zero_le _) counted
    constructor <;> simp only [Int.ofNat_eq_natCast] <;> omega
  unfold readInt at read
  split at read
  · cases read
  · cases read
  · cases read
  · exact unsigned read
  · obtain ⟨_, found, rfl⟩ := map_eq_ok.mp read
    obtain ⟨n, counted, same⟩ := bind_eq_ok.mp found
    cases same
    have small : n ≤ 2 ^ 63 := readDigits_le (Nat.zero_le _) counted
    omega
  · exact unsigned read

/-- Every integer is written in the usual notation. -/
theorem writes_toString (value : Int) : Writes (toString value).toList value := by
  cases value with
  | ofNat n =>
      have digits : (toString (Int.ofNat n)).toList = Nat.toDigits 10 n := Nat.toList_repr
      rw [digits]
      exact .plain (.toDigits n)
  | negSucc n =>
      have digits : (toString (Int.negSucc n)).toList = '-' :: Nat.toDigits 10 (n + 1) := by
        rw [Int.toString_eq_repr, Int.repr, String.toList_append, Nat.toList_repr]
        rfl
      rw [digits]
      exact .minus (.toDigits (n + 1))

theorem Numeral.colon_notMem {text : List Char} {n : Nat} (numeral : Numeral text n) :
    ':' ∉ text :=
  fun within => absurd (numeral.digits ':' within) (by decide)

theorem Writes.colon_notMem {text : List Char} {value : Int} (written : Writes text value) :
    ':' ∉ text := by
  cases written with
  | plain numeral => exact numeral.colon_notMem
  | plus numeral =>
      rw [List.mem_cons, not_or]
      exact ⟨by decide, numeral.colon_notMem⟩
  | minus numeral =>
      rw [List.mem_cons, not_or]
      exact ⟨by decide, numeral.colon_notMem⟩

end Text

namespace SourceMap

theorem readNumber_range {fault : SourceMapFault} {last value : Int} {field : List Char}
    (before : -2 ^ 63 ≤ last ∧ last < 2 ^ 63) (read : readNumber fault last field = .ok value) :
    -2 ^ 63 ≤ value ∧ value < 2 ^ 63 := by
  unfold readNumber at read
  split at read
  · cases read
    exact before
  · exact Text.readInt_range (mapError_eq_ok.mp read)

/-- An entry is in range if the one before is. -/
theorem readFields_inRange {last location : SourceLocation} {fields : List (List Char)}
    (before : InRange last) (read : readFields last fields = .ok location) : InRange location := by
  obtain ⟨offset, readOffset, read⟩ := bind_eq_ok.mp read
  obtain ⟨length, readLength, read⟩ := bind_eq_ok.mp read
  obtain ⟨fileIndex, readIndex, read⟩ := bind_eq_ok.mp read
  obtain ⟨jump, -, read⟩ := bind_eq_ok.mp read
  cases read
  obtain ⟨offsetSmall, lengthSmall, least, most⟩ := before
  have offsetRange := readNumber_range (by omega) readOffset
  have lengthRange := readNumber_range (by omega) readLength
  have indexRange := readNumber_range ⟨least, most⟩ readIndex
  constructor <;> dsimp only <;> omega

/-- Every entry of a source map is in range. -/
theorem readEntries_inRange {last : SourceLocation} {entries : List (List Char)}
    {locations : List SourceLocation} (before : InRange last)
    (read : readEntries last entries = .ok locations) :
    ∀ location ∈ locations, InRange location := by
  induction entries generalizing last locations with
  | nil =>
      cases read
      exact fun _ none => absurd none List.not_mem_nil
  | cons entry entries ih =>
      obtain ⟨first, readFirst, read⟩ := bind_eq_ok.mp read
      obtain ⟨others, readOthers, read⟩ := bind_eq_ok.mp read
      cases read
      have here := readFields_inRange before (mapError_eq_ok.mp readFirst)
      exact List.forall_mem_cons.mpr ⟨here, ih here readOthers⟩

end SourceMap

/-! ### Reading a position back -/

/-- The number of the source file in the range of a node. -/
def Node.fileIndex? (node : Node) : Option Int :=
  match Text.split ':' node.src.toList with
  | [_, _, index] => Text.int64? (String.ofList index)
  | _ => none

namespace SourceLocation

/-- The fields of a position. -/
theorem split_position (location : SourceLocation) :
    Text.split ':' location.position.toList =
      [Nat.toDigits 10 location.offset, Nat.toDigits 10 location.length,
        (toString location.fileIndex).toList] := by
  have joined : location.position.toList = [':'].intercalate
      [Nat.toDigits 10 location.offset, Nat.toDigits 10 location.length,
        (toString location.fileIndex).toList] := by
    simp [position, List.intercalate]
  have apart : ∀ n : Nat, ':' ∉ Nat.toDigits 10 n :=
    fun n => (Text.Numeral.toDigits n).colon_notMem
  rw [joined]
  refine Text.split_intercalate ':' _ (by simp) ?_
  simp only [List.mem_cons, List.not_mem_nil, or_false, forall_eq_or_imp, forall_eq]
  exact ⟨apart _, apart _, (Text.writes_toString _).colon_notMem⟩

/-- A node with the position of an entry has the range of the entry. -/
theorem nodeRange?_position {location : SourceLocation} (range : SourceMap.InRange location) :
    Source.nodeRange? location.position = some (location.offset, location.length) := by
  have offset := (Text.Numeral.toDigits location.offset).nat64?
    (Nat.le_of_lt (Nat.lt_trans range.offset (by decide)))
  have length := (Text.Numeral.toDigits location.length).nat64?
    (Nat.le_of_lt (Nat.lt_trans range.length (by decide)))
  simp only [Source.nodeRange?, location.split_position, offset, length]

/-- A node with the position of an entry is in the file of the entry. -/
theorem fileIndex?_position {location : SourceLocation} {node : Node}
    (range : SourceMap.InRange location) (src : node.src = location.position) :
    node.fileIndex? = some location.fileIndex := by
  have read := (Text.writes_toString location.fileIndex).readInt range.least range.most
  simp only [Node.fileIndex?, src, location.split_position, Text.int64?, String.toList_ofList, read]
  rfl

end SourceLocation

end SolTrace
