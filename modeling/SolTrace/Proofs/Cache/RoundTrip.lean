import SolTrace.Cache.Chain
import SolTrace.Proofs.Cache.Files
import SolTrace.Proofs.Trace.Documents
import SolTrace.Trace.Reduction
/-!
Caches give back what they are given. A value that is saved where there is a place for it is loaded
as it was, at any later time if the cache never expires, so that a provider with caches answers
again what it has answered before.
-/
set_option autoImplicit false

namespace SolTrace

variable {α : Type}

theorem run_bind {σ β γ : Type} {first : StateM σ β} {next : β → StateM σ γ} {before after : σ}
    {value : β} (ran : first.run before = (value, after)) :
    (first >>= next).run before = (next value).run after := by
  rw [StateT.run_bind, ran]
  rfl

/-! ### Entries -/

namespace CacheEntry

/-- Whether a value is read back from its document, which is read whole where it stands in an
entry. -/
structure Written (write : α → Json) (dataShape : Json.Shape) (read : Json → Option α)
    (value : α) : Prop where
  readBack : read (write value) = some value
  readable : Json.Readable 126 dataShape (write value)

variable {write : α → Json} {dataShape : Json.Shape} {read : Json → Option α} {value : α}

/-- An entry is read back from its text. -/
theorem Written.ofText?_print (written : Written write dataShape read value) {expiresAt : Nat}
    (small : expiresAt ≤ never) :
    ofText? dataShape read (toJson write ⟨value, expiresAt⟩).print = some ⟨value, expiresAt⟩ := by
  have readable : Json.Readable 127 (shape dataShape) (toJson write ⟨value, expiresAt⟩) := by
    refine .object (fun name => if name = "data" then dataShape else .whole)
      (fun member within => ?_) fun member within => ?_
    all_goals
      simp only [List.mem_cons, List.not_mem_nil, or_false] at within
      rcases within with rfl | rfl
    · rfl
    · rfl
    · exact written.readable
    · exact .number _ _ (Json.isNumber_toString expiresAt)
  have fields : (toJson write ⟨value, expiresAt⟩).fields? ["data", "expires_at"] =
      some [some (write value), some (.nat expiresAt)] := by
    simp [toJson, Json.fields?, Json.single?]
  rw [ofText?, readable.parse?_print, Option.bind_eq_bind, Option.bind_some, ofJson?, fields]
  simp only [Option.bind_eq_bind, Option.bind_some, written.readBack, Json.nat64?_nat small,
    Option.pure_def]

end CacheEntry

/-! ### Caches -/

namespace Cache

section

variable {write : α → Json} {dataShape : Json.Shape} {read : Json → Option α}
  {cache : Cache} {label path : String} (file : cache.file? label = some path)
include file

theorem run_save (now : Nat) (value : α) (tree : FileTree) :
    (cache.save write now label value).run tree =
      match tree.write? path (CacheEntry.toJson write ⟨value, cache.expiry now⟩).print with
      | none => (false, tree)
      | some after => (true, after) := by
  simp only [save, file, StateT.run_bind, StateT.run_get, pure_bind]
  cases tree.write? path (CacheEntry.toJson write ⟨value, cache.expiry now⟩).print with
  | none => rfl
  | some after => rfl

theorem run_load (now : Nat) (tree : FileTree) :
    (cache.load dataShape read now label).run tree =
      match tree.read? path with
      | none => (none, tree)
      | some text =>
          match (CacheEntry.ofText? dataShape read text).filter
            fun entry => !entry.isExpired now with
          | some entry => (some entry.data, tree)
          | none => (none, tree.remove path) := by
  simp only [load, file, StateT.run_bind, StateT.run_get, pure_bind, Option.bind_some]
  cases tree.read? path with
  | none => rfl
  | some text =>
      simp only [Option.map_some]
      cases (CacheEntry.ofText? dataShape read text).filter fun entry => !entry.isExpired now with
      | none => rfl
      | some entry => rfl

/-- Saving succeeds where there is room for the file of the label. -/
theorem save_iff (write : α → Json) (now : Nat) (value : α) (tree : FileTree) :
    ((cache.save write now label value).run tree).1 = true ↔ tree.HasRoom path := by
  rw [run_save file, ← FileTree.write?_isSome_iff]
  cases tree.write? path (CacheEntry.toJson write ⟨value, cache.expiry now⟩).print <;> simp

/-- What is saved stands in the file of the label, and no other file is touched. -/
theorem run_save_room {tree : FileTree} (room : tree.HasRoom path) (write : α → Json)
    (now : Nat) (value : α) :
    ∃ after, (cache.save write now label value).run tree = (true, after) ∧
      FileTree.Touches tree after path ∧
      after.read? path = some (CacheEntry.toJson write ⟨value, cache.expiry now⟩).print := by
  obtain ⟨after, written⟩ := Option.isSome_iff_exists.mp (FileTree.write?_isSome_iff.mpr room)
  refine ⟨after, ?_, FileTree.write?_spec written⟩
  rw [run_save file, written]

/-- When nothing is loaded, nothing is left in the file of the label, and no other file is
touched. -/
theorem run_load_missing {tree : FileTree} (room : tree.HasRoom path) {now : Nat}
    (missing : ((cache.load dataShape read now label).run tree).1 = none) :
    ∃ after, (cache.load dataShape read now label).run tree = (none, after) ∧
      FileTree.Touches tree after path ∧ after.read? path = none := by
  rw [run_load file] at missing ⊢
  cases found : tree.read? path with
  | none => exact ⟨tree, rfl, .refl tree path, found⟩
  | some text =>
      rw [found] at missing
      cases entry : (CacheEntry.ofText? dataShape read text).filter
        fun entry => !entry.isExpired now with
      | none => exact ⟨tree.remove path, by simp [entry], FileTree.remove_spec room⟩
      | some entry' => simp [entry] at missing

/-- What is loaded hangs on the file of the label alone. -/
theorem load_congr {before after : FileTree} (same : after.read? path = before.read? path)
    (now : Nat) :
    ((cache.load dataShape read now label).run after).1 =
      ((cache.load dataShape read now label).run before).1 := by
  rw [run_load file, run_load file, same]
  cases before.read? path with
  | none => rfl
  | some text =>
      simp only
      split <;> rfl

theorem run_load_none {tree : FileTree} (missing : tree.read? path = none) (now : Nat) :
    (cache.load dataShape read now label).run tree = (none, tree) := by
  rw [run_load file, missing]

/-- What stands in an entry is loaded until the entry expires. -/
theorem run_load_some {value : α} (written : CacheEntry.Written write dataShape read value)
    {tree : FileTree} {expiresAt now : Nat} (small : expiresAt ≤ CacheEntry.never)
    (held : tree.read? path = some (CacheEntry.toJson write ⟨value, expiresAt⟩).print)
    (valid : now ≤ expiresAt) :
    (cache.load dataShape read now label).run tree = (some value, tree) := by
  have lasting : (CacheEntry.mk value expiresAt).isExpired now = false :=
    decide_eq_false (Nat.not_lt.mpr valid)
  simp only [run_load file, held, written.ofText?_print small, Option.filter_some, lasting,
    Bool.not_false, if_true]

end

theorem run_inDirectory {directory : String} {lifetime : Option Nat} {before after : FileTree}
    {cache : Cache}
    (opened : (inDirectory directory lifetime).run.run before = (.ok cache, after)) :
    cache = ⟨some directory, lifetime⟩ := by
  obtain ⟨_, _, -, last⟩ := FileTree.Change.bind_eq_ok.mp opened
  cases last
  rfl

/-- Whether a cache that never expires gives back a value wherever there is a place for it, at any
later time. -/
def Keeps (write : α → Json) (dataShape : Json.Shape) (read : Json → Option α) (value : α) :
    Prop :=
  ∀ (directory label : String) (now later : Nat) (tree : FileTree), later ≤ CacheEntry.never →
    let cache : Cache := ⟨some directory, none⟩
    let saved := (cache.save write now label value).run tree
    (saved.1 = true ↔ tree.HasRoom (FilePath.join directory (label ++ ".json"))) ∧
      (saved.1 = true →
        (cache.load dataShape read later label).run saved.2 = (some value, saved.2))

end Cache

theorem CacheEntry.Written.keeps {write : α → Json} {dataShape : Json.Shape}
    {read : Json → Option α} {value : α} (written : Written write dataShape read value) :
    Cache.Keeps write dataShape read value := by
  intro directory label now later tree valid cache saved
  have file : cache.file? label = some (FilePath.join directory (label ++ ".json")) := rfl
  have success := Cache.save_iff file write now value tree
  refine ⟨success, fun done => ?_⟩
  obtain ⟨after, ran, -, held⟩ := Cache.run_save_room file (success.mp done) write now value
  have lasting : saved.2 = after := congrArg Prod.snd ran
  rw [lasting]
  exact Cache.run_load_some file written (Nat.le_refl _) held valid

theorem Trace.written {trace : Trace} (fits : trace.Fits) :
    CacheEntry.Written Trace.toJson Trace.shape Trace.ofJson? trace :=
  ⟨Trace.ofJson?_toJson fits, trace.readable 122⟩

theorem Transaction.written {transaction : Transaction} (fits : transaction.Fits) :
    CacheEntry.Written Transaction.toJson Transaction.shape Transaction.ofJson? transaction :=
  ⟨Transaction.ofJson?_toJson fits, transaction.readable 125⟩

/-! ### Caches in front of a provider -/

namespace ChainCache

/-- The caches below a root. They never expire. -/
def below (root : String) : ChainCache :=
  ⟨⟨some (transactionsDirectory root), none⟩, ⟨some (tracesDirectory root), none⟩⟩

theorem run_inRoot {root : String} {before tree : FileTree} {cache : ChainCache}
    (opened : (inRoot root).run.run before = (.ok cache, tree)) : cache = below root := by
  obtain ⟨transactions, between, first, rest⟩ := FileTree.Change.bind_eq_ok.mp opened
  obtain ⟨traces, _, second, last⟩ := FileTree.Change.bind_eq_ok.mp rest
  cases Cache.run_inDirectory first
  cases Cache.run_inDirectory second
  cases last
  rfl

/-! ### The files of a transaction -/

def transactionFile (root : String) (hash : Word) : String :=
  FilePath.join (transactionsDirectory root) (hashText hash ++ ".json")

def traceFile (root : String) (hash : Word) : String :=
  FilePath.join (tracesDirectory root) (hashText hash ++ ".json")

theorem isName_file (hash : Word) : FilePath.IsName (hashText hash ++ ".json") := by
  have text : (hashText hash ++ ".json").toList =
      '0' :: 'x' :: ((Hex.nibbles hash.bytes).map Hex.digitChar ++ ".json".toList) := by
    simp [hashText, Word.digits, Hex.flatMap_encodeByte]
  have other {name : String} (short : name.toList.head? ≠ some '0') :
      hashText hash ++ ".json" ≠ name := by
    rintro rfl
    exact short (by rw [text]; rfl)
  refine ⟨?_, other (by decide), other (by decide), other (by decide)⟩
  rw [text]
  intro within
  simp only [List.mem_cons, List.mem_append, List.mem_map] at within
  rcases within with same | same | ⟨d, digit, same⟩ | extension
  · cases same
  · cases same
  · have small := Hex.nibbles_small digit
    interval_cases d <;> cases same
  · simp at extension

/-- The file of a transaction stands in a directory of a given name. -/
theorem names_file (root : String) {directory : String} (isName : FilePath.IsName directory)
    (hash : Word) :
    FilePath.names (FilePath.join (FilePath.join (chainDirectory root) directory)
      (hashText hash ++ ".json")) =
        FilePath.names (chainDirectory root) ++ [directory, hashText hash ++ ".json"] := by
  have rpc : FilePath.IsName "rpc" := by constructor <;> decide
  have around : FilePath.names (FilePath.join (chainDirectory root) directory) =
      FilePath.names (chainDirectory root) ++ [directory] :=
    FilePath.names_join (FilePath.join_solid root rpc) isName
  rw [FilePath.names_join (FilePath.join_solid _ isName) (isName_file hash), around,
    List.append_assoc, List.singleton_append]

/-- The two files of a transaction are in different places. -/
theorem files_apart (root : String) (hash : Word) {tree : FileTree}
    (room : tree.HasRoom (transactionFile root hash)) :
    tree.route? (transactionFile root hash) ≠ tree.route? (traceFile root hash) := by
  have txs : FilePath.IsName "txs" := by constructor <;> decide
  have traces : FilePath.IsName "traces" := by constructor <;> decide
  have file := isName_file hash
  obtain ⟨route, leads, -⟩ := room
  intro same
  obtain ⟨around, ends⟩ :=
    FileTree.route?_names (names_file root txs hash) (by simp [txs, file]) leads
  obtain ⟨around', ends'⟩ :=
    FileTree.route?_names (names_file root traces hash) (by simp [traces, file])
      (same.symm.trans leads)
  obtain ⟨-, last⟩ := List.append_inj' (ends.symm.trans ends') rfl
  exact absurd (List.cons.inj last).1 (by decide)

/-! ### Asking twice -/

section

variable {root : String} {hash : Word} {tree : FileTree} {transaction : Transaction}
  {trace : Trace}

/-- The text that is kept of a transaction. -/
def transactionText (transaction : Transaction) : Option String :=
  if transaction.block.isSome then
    some (CacheEntry.toJson Transaction.toJson ⟨transaction, CacheEntry.never⟩).print
  else none

/-- A transaction that is asked of the provider is kept once it is mined. -/
theorem run_transaction (room : tree.HasRoom (transactionFile root hash)) {node : Provider}
    {now : Nat}
    (missing : (((below root).transactions.load Transaction.shape Transaction.ofJson? now
      (hashText hash)).run tree).1 = none)
    (answer : node.transaction hash = .ok transaction) :
    ∃ after, ((below root).transaction node now hash).run tree = (.ok transaction, after) ∧
      FileTree.Touches tree after (transactionFile root hash) ∧
      after.read? (transactionFile root hash) = transactionText transaction := by
  have file : (below root).transactions.file? (hashText hash) = some (transactionFile root hash) :=
    rfl
  obtain ⟨cleared, load, cleanly, gone⟩ := Cache.run_load_missing file room missing
  rw [ChainCache.transaction, run_bind load]
  cases mined : transaction.block.isSome with
  | false =>
      refine ⟨cleared, ?_, cleanly, by rw [gone, transactionText, mined]; rfl⟩
      simp only [answer, mined]
      rfl
  | true =>
      obtain ⟨after, save, kept, held⟩ := Cache.run_save_room file (room.of_same cleanly.same)
        Transaction.toJson now transaction
      refine ⟨after, ?_, cleanly.trans kept, by rw [held, transactionText, mined]; rfl⟩
      simp only [answer, mined, if_true]
      rw [run_bind save]
      rfl

/-- A trace that is asked of the provider is kept. -/
theorem run_trace (room : tree.HasRoom (traceFile root hash)) {node : Provider} {now : Nat}
    (missing : (((below root).traces.load Trace.shape Trace.ofJson? now
      (hashText hash)).run tree).1 = none)
    (answer : node.trace hash = .ok trace) :
    ∃ after, ((below root).trace node now hash).run tree = (.ok trace, after) ∧
      FileTree.Touches tree after (traceFile root hash) ∧
      after.read? (traceFile root hash) =
        some (CacheEntry.toJson Trace.toJson ⟨trace, CacheEntry.never⟩).print := by
  have file : (below root).traces.file? (hashText hash) = some (traceFile root hash) := rfl
  obtain ⟨cleared, load, cleanly, -⟩ := Cache.run_load_missing file room missing
  obtain ⟨after, save, kept, held⟩ := Cache.run_save_room file (room.of_same cleanly.same)
    Trace.toJson now trace
  refine ⟨after, ?_, cleanly.trans kept, held⟩
  rw [ChainCache.trace, run_bind load]
  simp only [answer]
  rw [run_bind save]
  rfl

/-- A transaction that is kept, or that the provider answers as before, is found again. -/
theorem run_transaction_again (fits : transaction.Fits)
    (held : tree.read? (transactionFile root hash) = transactionText transaction)
    {node : Provider} {later : Nat} (valid : later ≤ CacheEntry.never)
    (pending : transaction.block = none → node.transaction hash = .ok transaction) :
    ((below root).transaction node later hash).run tree = (.ok transaction, tree) := by
  have file : (below root).transactions.file? (hashText hash) = some (transactionFile root hash) :=
    rfl
  cases mined : transaction.block.isSome with
  | false =>
      rw [transactionText, mined] at held
      rw [ChainCache.transaction, run_bind (Cache.run_load_none file held later)]
      simp only [pending (Option.isSome_eq_false_iff.mp mined |> Option.isNone_iff_eq_none.mp),
        mined]
      rfl
  | true =>
      rw [transactionText, mined] at held
      rw [ChainCache.transaction,
        run_bind (Cache.run_load_some file (Transaction.written fits) (Nat.le_refl _) held valid)]
      rfl

theorem run_trace_again (fits : trace.Fits)
    (held : tree.read? (traceFile root hash) =
      some (CacheEntry.toJson Trace.toJson ⟨trace, CacheEntry.never⟩).print)
    (node : Provider) {later : Nat} (valid : later ≤ CacheEntry.never) :
    ((below root).trace node later hash).run tree = (.ok trace, tree) := by
  have file : (below root).traces.file? (hashText hash) = some (traceFile root hash) := rfl
  rw [ChainCache.trace,
    run_bind (Cache.run_load_some file (Trace.written fits) (Nat.le_refl _) held valid)]
  rfl

/-- Whether a provider has these answers and those of a node for code. -/
structure Answers (provider node : Provider) (hash : Word) (transaction : Transaction)
    (trace : Trace) : Prop where
  transaction : provider.transaction hash = .ok transaction
  trace : provider.trace hash = .ok trace
  code : provider.code = node.code

theorem run_provider {cache : ChainCache} {node : Provider} {now : Nat} {between after : FileTree}
    (first : (cache.transaction node now hash).run tree = (.ok transaction, between))
    (second : (cache.trace node now hash).run between = (.ok trace, after)) :
    ∃ provider, (cache.provider node now hash).run tree = (provider, after) ∧
      Answers provider node hash transaction trace := by
  refine ⟨{ node with
    transaction := fun other => if other = hash then .ok transaction else node.transaction other
    trace := fun other => if other = hash then .ok trace else node.trace other },
    ?_, if_pos rfl, if_pos rfl, rfl⟩
  rw [ChainCache.provider, run_bind first]
  simp only
  rw [run_bind second]
  rfl

/-- What is read from a trace hangs on these answers alone. -/
theorem Answers.fetch_eq {left right node other : Provider}
    (first : Answers left node hash transaction trace)
    (second : Answers right other hash transaction trace) (code : other.code = node.code) :
    TraceInputs.fetch left hash = TraceInputs.fetch right hash := by
  have codes : TraceInputs.fetchCodes left = TraceInputs.fetchCodes right := by
    funext known accounts
    rw [TraceInputs.fetchCodes, TraceInputs.fetchCodes, first.code, second.code, code]
  rw [TraceInputs.fetch, TraceInputs.fetch, first.transaction, first.trace, second.transaction,
    second.trace, codes]

/-- Whether a provider is asked for a transaction that the caches below a root do not hold yet, and
have room for. -/
structure FirstFetch (root : String) (cache : ChainCache) (node : Provider) (now : Nat)
    (hash : Word) (tree : FileTree) (transaction : Transaction) (trace : Trace) : Prop where
  opened : ∃ before after, (inRoot root).run.run before = (.ok cache, after)
  room : ∀ path ∈ files root hash, tree.HasRoom path
  noTransaction : ((cache.transactions.load Transaction.shape Transaction.ofJson? now
    (hashText hash)).run tree).1 = none
  noTrace : ((cache.traces.load Trace.shape Trace.ofJson? now (hashText hash)).run tree).1 = none
  transaction : node.transaction hash = .ok transaction
  trace : node.trace hash = .ok trace

/-- Whether a provider with caches gives the same answers twice, and the same steps from them, even
if the node behind it does not answer any more. Only a pending transaction is asked for again. -/
def Repeats (cache : ChainCache) (node : Provider) (now : Nat) (hash : Word) (tree : FileTree)
    (transaction : Transaction) (trace : Trace) : Prop :=
  let first := (cache.provider node now hash).run tree
  Answers first.1 node hash transaction trace ∧
    ∀ (other : Provider) (later : Nat), later ≤ CacheEntry.never → other.code = node.code →
      (transaction.block = none → other.transaction hash = .ok transaction) →
      let again := (cache.provider other later hash).run first.2
      again.2 = first.2 ∧ Answers again.1 other hash transaction trace ∧
        ∀ registry, (TraceInputs.fetch again.1 hash >>= reduce registry) =
          (TraceInputs.fetch first.1 hash >>= reduce registry)

theorem FirstFetch.repeats {cache : ChainCache} {node : Provider} {now : Nat}
    (fetched : FirstFetch root cache node now hash tree transaction trace)
    (transactionFits : transaction.Fits) (traceFits : trace.Fits) :
    Repeats cache node now hash tree transaction trace := by
  obtain ⟨before, opened, made⟩ := fetched.opened
  cases run_inRoot made
  have room : tree.HasRoom (transactionFile root hash) := fetched.room _ List.mem_cons_self
  have traceRoom : tree.HasRoom (traceFile root hash) :=
    fetched.room _ (List.mem_cons_of_mem _ List.mem_cons_self)
  have apart := files_apart root hash room
  -- The trace is asked for after the transaction is saved, which leaves its file alone.
  obtain ⟨between, first, saved, held⟩ :=
    run_transaction room fetched.noTransaction fetched.transaction
  have noTrace := (Cache.load_congr rfl (saved.others _ apart.symm) now).trans fetched.noTrace
  obtain ⟨after, second, traceSaved, traceHeld⟩ :=
    run_trace (traceRoom.of_same saved.same) noTrace fetched.trace
  rw [saved.same.route?, saved.same.route?] at apart
  have stillHeld := (traceSaved.others _ apart).trans held
  obtain ⟨provider, run, answers⟩ := run_provider first second
  rw [Repeats, run]
  refine ⟨answers, fun other later valid code pending => ?_⟩
  obtain ⟨again, rerun, answersAgain⟩ := run_provider
    (run_transaction_again transactionFits stillHeld valid pending)
    (run_trace_again traceFits traceHeld other valid)
  rw [rerun]
  refine ⟨rfl, answersAgain, fun registry => ?_⟩
  rw [answers.fetch_eq answersAgain code]

end

end ChainCache

/-- What is kept in caches that never expire comes back unchanged: traces, transactions, the logs
that were read from any document, and the answers of a provider with caches. -/
theorem cache_roundTrip :
    (∀ trace : Trace, trace.Fits → Cache.Keeps Trace.toJson Trace.shape Trace.ofJson? trace) ∧
    (∀ transaction : Transaction, transaction.Fits →
      Cache.Keeps Transaction.toJson Transaction.shape Transaction.ofJson? transaction) ∧
    (∀ (json : Json) (log : StructLog), StructLog.ofJson? json = some log →
      (Json.parse? StructLog.shape log.toJson.print).bind StructLog.ofJson? = some log) ∧
    ∀ (root : String) (cache : ChainCache) (node : Provider) (now : Nat) (hash : Word)
      (tree : FileTree) (transaction : Transaction) (trace : Trace),
      transaction.Fits → trace.Fits →
      ChainCache.FirstFetch root cache node now hash tree transaction trace →
      ChainCache.Repeats cache node now hash tree transaction trace := by
  refine ⟨fun trace fits => (Trace.written fits).keeps,
    fun transaction fits => (Transaction.written fits).keeps, fun json log read => ?_,
    fun root cache node now hash tree transaction trace transactionFits traceFits fetched =>
      fetched.repeats transactionFits traceFits⟩
  rw [(log.readable 125).parse?_print, Option.bind_some]
  exact StructLog.ofJson?_toJson (StructLog.ofJson?_fits read)

namespace Cache.Sample

/-- A log that failed with more than a text. -/
def failedLog : Json :=
  .object [("pc", .nat 7), ("op", .string "SSTORE"), ("depth", .nat 1),
    ("stack", .array [.string "0x2a", .string ""]), ("memory", .array [.string "00ff"]),
    ("storage", .object [("01", .string "0x2a")]),
    ("error", .object [("message", .string "bad")])]

def trace : Trace where
  failed := true
  logs := [⟨7, "SSTORE", 1, [42, 0], [0, 255], Std.ExtTreeMap.empty.insert 1 42, none⟩]

def transaction : Transaction := ⟨7, some 9, [1, 2], some 16⟩

def node : Provider where
  transaction _ := .ok transaction
  trace _ := .ok trace
  code _ := .ok ""
  storage _ _ _ := .ok 0

/-- The caches below a root, with nothing in them. -/
def emptyCaches : FileTree where
  entries := (((Std.ExtTreeMap.empty.insert ["k"] .directory).insert ["k", "rpc"]
    .directory).insert ["k", "rpc", "txs"] .directory).insert ["k", "rpc", "traces"] .directory
  workingDirectory := []

theorem trace_fits : trace.Fits :=
  List.forall_mem_singleton.mpr ⟨by decide, by decide⟩

theorem transaction_fits : transaction.Fits := by
  rintro _ ⟨⟩
  decide

theorem opened :
    ∃ before after, (ChainCache.inRoot "/k").run.run before = (.ok (.below "/k"), after) := by
  have made : ((ChainCache.inRoot "/k").run.run (.empty [])).1 = .ok (.below "/k") := by
    decide +kernel
  refine ⟨.empty [], ((ChainCache.inRoot "/k").run.run (.empty [])).2, ?_⟩
  rw [← made]
  exact (Prod.eta _).symm

theorem fetched :
    ChainCache.FirstFetch "/k" (.below "/k") node 0 7 emptyCaches transaction trace where
  opened := opened
  room := by
    let file := "0x0000000000000000000000000000000000000000000000000000000000000007.json"
    have transactions : emptyCaches.HasRoom (ChainCache.transactionFile "/k" 7) :=
      ⟨["k", "rpc", "txs", file], by decide +kernel, by decide +kernel⟩
    have traces : emptyCaches.HasRoom (ChainCache.traceFile "/k" 7) :=
      ⟨["k", "rpc", "traces", file], by decide +kernel, by decide +kernel⟩
    exact List.forall_mem_cons.mpr ⟨transactions, List.forall_mem_singleton.mpr traces⟩
  noTransaction := by decide +kernel
  noTrace := Option.isNone_iff_eq_none.mp (by decide +kernel)
  transaction := rfl
  trace := rfl

end Cache.Sample

/-- A trace, a mined transaction, a log whose error is an object, and a provider that has answered
once. -/
theorem cache_roundTrip_sample :
    (Cache.Sample.trace.Fits ∧
      Cache.Keeps Trace.toJson Trace.shape Trace.ofJson? Cache.Sample.trace) ∧
    (Cache.Sample.transaction.Fits ∧
      Cache.Keeps Transaction.toJson Transaction.shape Transaction.ofJson?
        Cache.Sample.transaction) ∧
    (∃ log, StructLog.ofJson? Cache.Sample.failedLog = some log ∧
      log.error = some "\x7b\"message\":\"bad\"\x7d" ∧
      (Json.parse? StructLog.shape log.toJson.print).bind StructLog.ofJson? = some log) ∧
    ChainCache.FirstFetch "/k" (.below "/k") Cache.Sample.node 0 7 Cache.Sample.emptyCaches
      Cache.Sample.transaction Cache.Sample.trace ∧
    ChainCache.Repeats (.below "/k") Cache.Sample.node 0 7 Cache.Sample.emptyCaches
      Cache.Sample.transaction Cache.Sample.trace := by
  have failed : (StructLog.ofJson? Cache.Sample.failedLog).bind (·.error) =
      some "\x7b\"message\":\"bad\"\x7d" := by decide +kernel
  obtain ⟨log, read, error⟩ := Option.bind_eq_some_iff.mp failed
  exact ⟨⟨Cache.Sample.trace_fits, cache_roundTrip.1 _ Cache.Sample.trace_fits⟩,
    ⟨Cache.Sample.transaction_fits, cache_roundTrip.2.1 _ Cache.Sample.transaction_fits⟩,
    ⟨log, read, error, cache_roundTrip.2.2.1 _ _ read⟩, Cache.Sample.fetched,
    cache_roundTrip.2.2.2 _ _ _ _ _ _ _ _ Cache.Sample.transaction_fits Cache.Sample.trace_fits
      Cache.Sample.fetched⟩

end SolTrace
