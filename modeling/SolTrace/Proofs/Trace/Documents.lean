import SolTrace.Proofs.Json.RoundTrip
import SolTrace.Proofs.Text.Hexadecimal
import SolTrace.Trace.StructLog
import SolTrace.Trace.Transaction
/-!
Traces and transactions in documents. What is written is read back, in all its notations: words
without zeros in front, memory in pieces, storage by the text of its slots. The documents are read
whole from their text.
-/
set_option autoImplicit false

namespace SolTrace

/-! ### Notations -/

namespace Json

variable {α : Type} {read : Json → Option α}

theorem nat64?_nat {n : Nat} (small : n ≤ Text.maxNat64) : (nat n).nat64? = some n := by
  have text : toString n = String.ofList (Nat.toDigits 10 n) := by
    rw [← Nat.toList_repr, String.ofList_toList]
    rfl
  rw [nat, nat64?, text]
  exact (Text.Numeral.toDigits n).nat64? small

theorem mapM_map {β : Type} {make : β → Option α} {write : α → β} {values : List α}
    (each : ∀ value ∈ values, make (write value) = some value) :
    (values.map write).mapM make = some values := by
  induction values with
  | nil => rfl
  | cons value values ih =>
      rw [List.map_cons, List.mapM_cons, each value List.mem_cons_self,
        ih fun value within => each value (List.mem_cons_of_mem _ within)]
      rfl

theorem list?_array (write : α → Json) {values : List α}
    (each : ∀ value ∈ values, read (write value) = some value) :
    list? read (.array (values.map write)) = some values :=
  mapM_map each

theorem list?_string {β : Type} (text : β → String) (values : List β) :
    list? string? (.array (values.map fun value => .string (text value))) =
      some (values.map text) := by
  have read : list? string? (.array ((values.map text).map .string)) = some (values.map text) :=
    list?_array .string fun _ _ => rfl
  rwa [List.map_map] at read

theorem nat64?_le {json : Json} {n : Nat} (known : json.nat64? = some n) : n ≤ Text.maxNat64 := by
  cases json with
  | number text => exact Text.nat64?_le known
  | _ => cases known

theorem optional_some {json : Json} {value : α} (given : json ≠ .null)
    (known : read json = some value) : optional read (some json) = some (some value) := by
  rw [optional, known, Option.map_some]
  exact given

/-- An array of documents that a shape reads whole. -/
theorem Readable.list {levels : Nat} {shape : Shape} {items : List Json}
    (each : ∀ item ∈ items, Readable levels shape item) :
    Readable (levels + 1) (.list shape) (.array items) :=
  .array fun _ inside => each _ (List.getElem_mem inside)

theorem Readable.strings {β : Type} (levels : Nat) (text : β → String) (values : List β) :
    Readable (levels + 1) .whole (.array (values.map fun value => .string (text value))) := by
  refine .array fun index inside => ?_
  rw [List.getElem_map]
  exact .string levels _ _

theorem Shape.member?_flat {names : List String} {name : String} (named : name ∈ names) :
    (flat names).member? name = some .whole := by
  rw [flat, member?]
  induction names with
  | nil => exact absurd named List.not_mem_nil
  | cons first names ih =>
      rw [List.map_cons, List.lookup_cons]
      rcases List.mem_cons.mp named with same | named
      · rw [beq_iff_eq.mpr same]
      · split
        · rfl
        · exact ih named

/-- An object with members of a flat record. -/
theorem Readable.flat {levels : Nat} {names : List String} {members : List (String × Json)}
    (named : ∀ member ∈ members, member.1 ∈ names)
    (each : ∀ member ∈ members, Readable levels .whole member.2) :
    Readable (levels + 1) (.flat names) (.object members) :=
  .object (fun _ => .whole) (fun member within => Shape.member?_flat (named member within)) each

end Json

/-! ### Maps -/

/-- A map of entries whose keys are different has these entries. -/
theorem getElem?_ofList_iff {α β : Type} [Ord α] [Std.TransOrd α] [Std.LawfulEqOrd α]
    [DecidableEq α] {entries : List (α × β)}
    (distinct : entries.Pairwise fun first second => first.1 ≠ second.1) (key : α) (value : β) :
    (Std.ExtTreeMap.ofList entries)[key]? = some value ↔ (key, value) ∈ entries := by
  have apart : entries.Pairwise fun first second => ¬ compare first.1 second.1 = .eq :=
    distinct.imp fun different same => different (Std.LawfulEqOrd.eq_of_compare same)
  have found {value : β} (within : (key, value) ∈ entries) :
      (Std.ExtTreeMap.ofList entries)[key]? = some value :=
    Std.ExtTreeMap.getElem?_ofList_of_mem Std.ReflCmp.compare_self apart within
  refine ⟨fun known => ?_, found⟩
  by_cases present : key ∈ entries.map Prod.fst
  · obtain ⟨⟨_, other⟩, within, rfl⟩ := List.mem_map.mp present
    rw [found within] at known
    cases known
    exact within
  · rw [Std.ExtTreeMap.getElem?_ofList_of_contains_eq_false (by simpa using present)] at known
    cases known

/-- Entries that are read one by one make the map of all of them. -/
theorem foldlM_insert {α β γ : Type} [Ord α] [Std.TransOrd α]
    {read : Std.ExtTreeMap α β → γ → Option (Std.ExtTreeMap α β)} {entry : γ → α × β}
    {items : List γ} (each : ∀ map, ∀ item ∈ items,
      read map item = some (map.insert (entry item).1 (entry item).2)) :
    items.foldlM read ∅ = some (Std.ExtTreeMap.ofList (items.map entry)) := by
  rw [Std.ExtTreeMap.ofList_eq_insertMany_empty, Std.ExtTreeMap.insertMany_list_eq_foldl]
  generalize (∅ : Std.ExtTreeMap α β) = map
  induction items generalizing map with
  | nil => rfl
  | cons item items ih =>
      rw [List.foldlM_cons, each map item List.mem_cons_self, List.map_cons, List.foldl_cons]
      exact ih (fun map item within => each map item (List.mem_cons_of_mem _ within)) _

section Texts

variable {α : Type} {write : α → String} {read : String → Option α}

/-- The entry in texts. -/
def entryOf [Inhabited α] (read : String → Option α) (texts : String × String) : α × α :=
  ((read texts.1).getD default, (read texts.2).getD default)

theorem entryOf_write [Inhabited α] (readBack : ∀ value, read (write value) = some value)
    (key value : α) : entryOf read (write key, write value) = (key, value) := by
  simp only [entryOf, readBack, Option.getD_some]

variable [Ord α] [Std.TransOrd α] [Std.LawfulEqOrd α]

/-- The map of the texts of a map's entries. -/
def textsOf (write : α → String) (map : Std.ExtTreeMap α α) : Std.ExtTreeMap String String :=
  .ofList (map.toList.map fun entry => (write entry.1, write entry.2))

/-- Different keys have different texts, so that no entry is lost. -/
theorem mem_textsOf (readBack : ∀ value, read (write value) = some value)
    (map : Std.ExtTreeMap α α) (entry : String × String) :
    entry ∈ (textsOf write map).toList ↔
      ∃ key value, map[key]? = some value ∧ entry = (write key, write value) := by
  have distinct : (map.toList.map fun entry => (write entry.1, write entry.2)).Pairwise
      fun first second => first.1 ≠ second.1 := by
    refine List.pairwise_map.mpr (map.distinct_keys_toList.imp fun different same => ?_)
    have keys := congrArg read same
    rw [readBack, readBack] at keys
    rw [Option.some.inj keys] at different
    exact different Std.ReflCmp.compare_self
  obtain ⟨keyText, text⟩ := entry
  rw [Std.ExtTreeMap.mem_toList_iff_getElem?_eq_some, textsOf, getElem?_ofList_iff distinct,
    List.mem_map]
  constructor
  · rintro ⟨⟨key, value⟩, held, same⟩
    exact ⟨key, value, Std.ExtTreeMap.mem_toList_iff_getElem?_eq_some.mp held, same.symm⟩
  · rintro ⟨key, value, held, same⟩
    exact ⟨(key, value), Std.ExtTreeMap.mem_toList_iff_getElem?_eq_some.mpr held, same.symm⟩

theorem mem_entriesOf [Inhabited α] (readBack : ∀ value, read (write value) = some value)
    (map : Std.ExtTreeMap α α) (key value : α) :
    (key, value) ∈ (textsOf write map).toList.map (entryOf read) ↔ map[key]? = some value := by
  rw [List.mem_map]
  constructor
  · rintro ⟨texts, within, same⟩
    obtain ⟨key', value', held, rfl⟩ := (mem_textsOf readBack _ texts).mp within
    rw [entryOf_write readBack] at same
    cases same
    exact held
  · intro held
    exact ⟨_, (mem_textsOf readBack _ _).mpr ⟨key, value, held, rfl⟩,
      entryOf_write readBack key value⟩

/-- Different texts are those of different keys. -/
theorem distinct_entriesOf [Inhabited α] (readBack : ∀ value, read (write value) = some value)
    (map : Std.ExtTreeMap α α) : ((textsOf write map).toList.map (entryOf read)).Pairwise
      fun first second => first.1 ≠ second.1 := by
  refine List.pairwise_map.mpr ((textsOf write map).distinct_keys_toList.imp_of_mem ?_)
  intro first second left right different same
  obtain ⟨key, value, -, rfl⟩ := (mem_textsOf readBack _ first).mp left
  obtain ⟨key', value', -, rfl⟩ := (mem_textsOf readBack _ second).mp right
  rw [entryOf_write readBack, entryOf_write readBack] at same
  cases same
  exact different Std.ReflCmp.compare_self

/-- A map is read back from the texts of its entries. -/
theorem foldlM_textsOf [DecidableEq α] [Inhabited α]
    (readBack : ∀ value, read (write value) = some value) (map : Std.ExtTreeMap α α) :
    (textsOf write map).toList.foldlM (fun (map : Std.ExtTreeMap α α) entry => do
      return map.insert (← read entry.1) (← read entry.2)) ∅ = some map := by
  have same : Std.ExtTreeMap.ofList ((textsOf write map).toList.map (entryOf read)) = map := by
    refine Std.ExtTreeMap.ext_getElem? fun key => Option.ext fun value => ?_
    rw [getElem?_ofList_iff (distinct_entriesOf readBack map), mem_entriesOf readBack]
  conv_rhs => rw [← same]
  refine foldlM_insert fun known texts within => ?_
  obtain ⟨key, value, -, rfl⟩ := (mem_textsOf readBack _ texts).mp within
  simp only [readBack, entryOf_write readBack]
  rfl

end Texts

/-! ### Struct logs -/

namespace StructLog

theorem word?_hex (word : Word) : word? word.hex = some word := by
  rw [word?, Word.read_hex]
  rfl

theorem word?_digitsText (word : Word) : word? (digitsText word) = some word := by
  rw [word?, digitsText, Word.read_ofList_digits]
  rfl

theorem stackOfJson?_words (stack : List Word) :
    stackOfJson? (.array (stack.map fun word => .string word.hex)) = some stack := by
  rw [stackOfJson?, Json.list?_string]
  exact Json.mapM_map fun word _ => word?_hex word

theorem flatten_memoryChunks (memory : List UInt8) : (memoryChunks memory).flatten = memory := by
  fun_induction memoryChunks memory with
  | case1 => rfl
  | case2 byte memory ih =>
      rw [List.flatten_cons, ih, List.cons_append, List.take_append_drop]

theorem memoryOfJson?_chunks (memory : List UInt8) :
    memoryOfJson? (.array ((memoryChunks memory).map fun bytes => .string (Hex.encode bytes))) =
      some memory := by
  rw [memoryOfJson?, Json.list?_string, Option.bind_eq_bind, Option.bind_some, Hex.join_encode,
    Hex.decode_encode, flatten_memoryChunks, Except.toOption]

theorem storageOfJson?_entries (storage : Storage) :
    storageOfJson? (.object (storage.toList.map fun entry =>
      (digitsText entry.1, .string (digitsText entry.2)))) = some storage := by
  have texts : (storage.toList.map fun entry =>
      (digitsText entry.1, Json.string (digitsText entry.2))).foldlM
        (fun texts member => do return texts.insert member.1 (← member.2.string?))
        (∅ : Std.ExtTreeMap String String) = some (textsOf digitsText storage) := by
    rw [List.foldlM_map, textsOf]
    refine foldlM_insert fun map entry within => ?_
    rw [Json.string?]
    rfl
  rw [storageOfJson?, Json.members?, Option.bind_eq_bind, Option.bind_some, Option.bind_eq_bind,
    texts, Option.bind_some]
  exact foldlM_textsOf word?_digitsText storage

/-- Whether the numbers of a log have 64 bits. -/
structure Fits (log : StructLog) : Prop where
  pc : log.pc ≤ Text.maxNat64
  depth : log.depth ≤ Text.maxNat64

theorem errorOfJson?_string (text : String) : errorOfJson? (.string text) = some (some text) := by
  simp [errorOfJson?, Json.resolve?, Json.resolveWith]

/-- A log is read back from its document. -/
theorem ofJson?_toJson {log : StructLog} (fits : log.Fits) : ofJson? log.toJson = some log := by
  have fields : log.toJson.fields? fieldNames =
      some [some (.nat log.pc), some (.string log.op), some (.nat log.depth),
        some (.array (log.stack.map fun word => .string word.hex)),
        some (.array ((memoryChunks log.memory).map fun bytes => .string (Hex.encode bytes))),
        some (.object (log.storage.toList.map fun entry =>
          (digitsText entry.1, .string (digitsText entry.2)))),
        log.error.map .string] := by
    cases known : log.error <;> simp [toJson, Json.fields?, fieldNames, Json.single?, known]
  have error : (log.error.map Json.string).elim (some none) errorOfJson? = some log.error := by
    cases log.error with
    | none => rfl
    | some text => exact errorOfJson?_string text
  have stack := Json.optional_some Json.noConfusion (stackOfJson?_words log.stack)
  have memory := Json.optional_some Json.noConfusion (memoryOfJson?_chunks log.memory)
  have storage := Json.optional_some Json.noConfusion (storageOfJson?_entries log.storage)
  rw [ofJson?, fields]
  simp only [Option.bind_eq_bind, Option.bind_some, Json.nat64?_nat fits.pc, Json.string?,
    Json.withDefault, Json.nat64?_nat fits.depth, stack, memory, storage, error, Option.getD_some,
    Option.pure_def]

/-- The numbers of a log that is read have 64 bits. -/
theorem ofJson?_fits {json : Json} {log : StructLog} (read : ofJson? json = some log) :
    log.Fits := by
  rw [ofJson?] at read
  simp only [Option.bind_eq_bind, Option.bind_eq_some_iff] at read
  obtain ⟨fields, -, read⟩ := read
  split at read
  · next given _ _ _ _ =>
      simp only [Option.bind_eq_some_iff, Option.pure_def, Option.some.injEq] at read
      obtain ⟨_, counted, _, -, _, deep, _, -, _, -, _, -, _, -, rfl⟩ := read
      refine ⟨Json.nat64?_le counted, ?_⟩
      cases given with
      | none =>
          cases deep
          exact Nat.zero_le _
      | some json => exact Json.nat64?_le deep
  · cases read

/-- The document of a log is read whole. -/
theorem readable (log : StructLog) (levels : Nat) :
    Json.Readable (levels + 2) shape log.toJson := by
  have storage : Json.Readable (levels + 1) .whole (.object (log.storage.toList.map fun entry =>
      (digitsText entry.1, .string (digitsText entry.2)))) := by
    refine .object (fun _ => .whole) (fun _ _ => rfl) fun member within => ?_
    obtain ⟨entry, -, rfl⟩ := List.mem_map.mp within
    exact .string levels _ _
  refine .flat (by simp +contextual [fieldNames, or_imp]) fun member within => ?_
  simp only [List.mem_append, List.mem_cons, List.not_mem_nil, or_false] at within
  rcases within with (rfl | rfl | rfl | rfl | rfl | rfl) | within
  · exact .number _ _ (Json.isNumber_toString _)
  · exact .string _ _ _
  · exact .number _ _ (Json.isNumber_toString _)
  · exact .strings levels Word.hex log.stack
  · exact .strings levels Hex.encode (memoryChunks log.memory)
  · exact storage
  · obtain ⟨text, -, rfl⟩ := List.mem_map.mp within
    exact .string _ _ text

end StructLog

/-! ### Traces -/

namespace Trace

/-- Whether the numbers of all logs have 64 bits. -/
def Fits (trace : Trace) : Prop :=
  ∀ log ∈ trace.logs, log.Fits

/-- A trace is read back from its document. -/
theorem ofJson?_toJson {trace : Trace} (fits : trace.Fits) : ofJson? trace.toJson = some trace := by
  have fields : trace.toJson.fields? ["failed", "structLogs"] =
      some [some (.bool trace.failed), some (.array (trace.logs.map StructLog.toJson))] := by
    simp [toJson, Json.fields?, Json.single?]
  have logs : Json.list? StructLog.ofJson? (.array (trace.logs.map StructLog.toJson)) =
      some trace.logs :=
    Json.list?_array StructLog.toJson fun log within => StructLog.ofJson?_toJson (fits log within)
  rw [ofJson?, fields]
  simp only [Option.bind_eq_bind, Option.bind_some, Json.withDefault, Json.bool?, logs,
    Option.pure_def]

theorem readable (trace : Trace) (levels : Nat) :
    Json.Readable (levels + 4) shape trace.toJson := by
  have logs : Json.Readable (levels + 3) (.list StructLog.shape)
      (.array (trace.logs.map StructLog.toJson)) := by
    refine .list fun item within => ?_
    obtain ⟨log, -, rfl⟩ := List.mem_map.mp within
    exact log.readable levels
  refine .object (fun name => if name = "failed" then .whole else .list StructLog.shape)
    (fun member within => ?_) fun member within => ?_
  all_goals
    simp only [List.mem_cons, List.not_mem_nil, or_false] at within
    rcases within with rfl | rfl
  · rfl
  · rfl
  · exact .bool _ _ _
  · exact logs

end Trace

/-! ### Transactions -/

namespace Transaction

theorem bytesOfJson?_text (bytes : List UInt8) :
    bytesOfJson? (.string (Hex.encode0x bytes)) = some bytes := by
  have even : ((Hex.nibbles bytes).map Hex.digitByte).length % 2 = 0 := by
    rw [List.length_map, Hex.length_nibbles]
    omega
  simp only [bytesOfJson?, bytesOfText?, Hex.stripPrefix_encode0x, if_pos even,
    Hex.decodePairs_nibbles]
  rfl

theorem fixedBytesOfJson?_text {bytes : List UInt8} {width : Nat} (exact : bytes.length = width) :
    fixedBytesOfJson? width (.string (Hex.encode0x bytes)) = some bytes := by
  simp only [fixedBytesOfJson?, bytesOfJson?_text, Option.filter_some, exact, beq_self_eq_true,
    if_true]

/-- A digit is no underscore, and is read as its value. -/
theorem digit?_digitChar (d : Nat) (small : d < 16) :
    digit? d.digitChar = some d ∧ d.digitChar ≠ '_' := by
  interval_cases d <;> decide

theorem readDigits_digitChar (d : Nat) (small : d < 16) (rest : List Char) (value : Nat) :
    readDigits 16 (d.digitChar :: rest) value = readDigits 16 rest (value * 16 + d) := by
  obtain ⟨known, notSkipped⟩ := digit?_digitChar d small
  rw [readDigits, known, Option.filter_some, if_pos (decide_eq_true small)]
  exact notSkipped

theorem readDigits_toDigits (n : Nat) (rest : List Char) :
    readDigits 16 (Nat.toDigits 16 n ++ rest) 0 = readDigits 16 rest n := by
  induction n using Nat.strongRecOn generalizing rest with
  | ind n ih =>
      by_cases small : n < 16
      · rw [Nat.toDigits_of_lt_base small, List.singleton_append, readDigits_digitChar n small,
          Nat.zero_mul, Nat.zero_add]
      · have value : n / 16 * 16 + n % 16 = n := by omega
        rw [Nat.toDigits_of_base_le (by decide) (by omega), List.append_assoc,
          ih (n / 16) (by omega), List.singleton_append,
          readDigits_digitChar (n % 16) (by omega), value]

theorem numberOfJson?_text {n : Nat} (small : n ≤ Text.maxNat64) :
    numberOfJson? (.string ("0x" ++ String.ofList (Nat.toDigits 16 n))) = some n := by
  have digits := readDigits_toDigits n []
  rw [List.append_nil] at digits
  have text : ("0x" ++ String.ofList (Nat.toDigits 16 n)).toList =
      '0' :: 'x' :: Nat.toDigits 16 n := by simp
  simp only [numberOfJson?, numberOfText?, text, digits, readDigits, Option.filter_some,
    decide_eq_true small, if_true]

/-- Whether the number of the block has 64 bits. -/
def Fits (transaction : Transaction) : Prop :=
  ∀ block ∈ transaction.block, block ≤ Text.maxNat64

/-- A transaction is read back from its document. -/
theorem ofJson?_toJson {transaction : Transaction} (fits : transaction.Fits) :
    ofJson? transaction.toJson = some transaction := by
  have fields : transaction.toJson.fields? fieldNames =
      some [some (.string (Hex.encode0x transaction.hash.bytes)),
        some (transaction.receiver.elim .null fun address => .string (Hex.encode0x address.bytes)),
        some (.string (Hex.encode0x transaction.input)),
        some (transaction.block.elim .null fun block =>
          .string ("0x" ++ String.ofList (Nat.toDigits 16 block)))] := by
    simp [toJson, Json.fields?, fieldNames, Json.single?]
  have hash := fixedBytesOfJson?_text transaction.hash.bytes_length
  have receiver : (Json.optional (fixedBytesOfJson? 20) (some (transaction.receiver.elim .null
      fun address => .string (Hex.encode0x address.bytes)))).map
        (Option.map Address.ofBytes) = some transaction.receiver := by
    cases transaction.receiver with
    | none => rfl
    | some address =>
        have length : address.bytes.length = 20 := bigEndian_length 20 _
        rw [Option.elim_some, Json.optional_some Json.noConfusion (fixedBytesOfJson?_text length),
          Option.map_some, Option.map_some, address.ofBytes_bytes]
  have block : Json.optional numberOfJson? (some (transaction.block.elim .null fun block =>
      .string ("0x" ++ String.ofList (Nat.toDigits 16 block)))) = some transaction.block := by
    cases known : transaction.block with
    | none => rfl
    | some block =>
        exact Json.optional_some Json.noConfusion (numberOfJson?_text (fits block known))
  obtain ⟨account, known, same⟩ := Option.map_eq_some_iff.mp receiver
  rw [ofJson?, fields]
  simp only [Option.bind_eq_bind, Option.bind_some, hash, known, Json.withDefault,
    bytesOfJson?_text, block, same, Word.ofBytes_bytes, Option.pure_def]

theorem readable (transaction : Transaction) (levels : Nat) :
    Json.Readable (levels + 1) shape transaction.toJson := by
  refine .flat (by simp [fieldNames]) fun member within => ?_
  simp only [List.mem_cons, List.not_mem_nil, or_false] at within
  rcases within with rfl | rfl | rfl | rfl
  · exact .string _ _ _
  · cases transaction.receiver with
    | none => exact .null _ _
    | some address => exact .string _ _ _
  · exact .string _ _ _
  · cases transaction.block with
    | none => exact .null _ _
    | some block => exact .string _ _ _

end Transaction

end SolTrace
