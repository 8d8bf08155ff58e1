import SolTrace.Proofs.Trace.Contexts
import SolTrace.Proofs.Trace.Restoring
import SolTrace.Proofs.Trace.StateVariables
/-!
The storage that steps show. Logs report parts of the storage of the account that they run on; a
step shows for each slot of its own account what was reported last, up to its log.
-/
set_option autoImplicit false

namespace SolTrace

/-! ### Attribution of logs -/

namespace Alignment

/-- Whether each record has the account that its log is attributed to. As long as contexts are
active, all logs before an index are attributed. -/
structure Attributed (alignment : Alignment) (index : Nat) : Prop where
  whole : alignment.contexts ≠ [] → alignment.addresses.size = index
  records : ∀ record ∈ alignment.records,
    alignment.addresses[record.index]? = some record.address

section

variable {registry : Registry} {inputs : TraceInputs} {alignment after : Alignment}

theorem follow_addresses {current : Context} {index : Nat} {log : StructLog}
    {record : Option Record}
    (followed : alignment.follow registry inputs current index log record = .ok after) :
    after.addresses = alignment.addresses ∧ after.records = alignment.records := by
  rcases follow_cases followed with rfl | rfl | ⟨code, address, depth, rfl⟩ <;> exact ⟨rfl, rfl⟩

theorem record?_address {contexts : List Context} {current : Context} {index : Nat}
    {log : StructLog} {record : Record}
    (made : record? registry contexts current index log = .ok (some record)) :
    record.index = index ∧ record.address = current.address := by
  obtain ⟨⟨contract, code⟩, _, rest⟩ := bind_eq_ok.mp made
  dsimp only at rest
  split at rest
  · cases rest
  · obtain ⟨node, _, equal⟩ := bind_eq_ok.mp rest
    cases equal
    exact ⟨rfl, rfl⟩

/-- A record that was made before has its account still, and the new one that of its context. -/
theorem assign_attributed {contexts : List Context} {current : Context} {index : Nat}
    {log : StructLog} {record : Option Record} (attributed : alignment.Attributed index)
    (active : alignment.contexts ≠ [])
    (made : record? registry contexts current index log = .ok record) :
    (alignment.assign current record).Attributed (index + 1) := by
  have size := attributed.whole active
  constructor
  · intro _
    show (alignment.addresses.push current.address).size = index + 1
    rw [Array.size_push, size]
  · have old : ∀ other ∈ alignment.records,
        (alignment.addresses.push current.address)[other.index]? = some other.address := by
      intro other member
      have found := attributed.records other member
      rw [Array.getElem?_push, if_neg, found]
      intro last
      simp [last] at found
    cases record with
    | none => exact old
    | some record =>
        intro other member
        rcases Array.mem_push.mp member with member | rfl
        · exact old other member
        · obtain ⟨here, address⟩ := record?_address made
          show (alignment.addresses.push current.address)[other.index]? = some other.address
          rw [here, ← size, Array.getElem?_push_size, address]

theorem addLog_attributed {log : StructLog} {index : Nat} (attributed : alignment.Attributed index)
    (added : addLog registry inputs alignment (log, index) = .ok after) :
    after.Attributed (index + 1) := by
  have left : (alignment.leaveDeeper log.depth).Attributed index := by
    refine ⟨fun active => attributed.whole fun none => active ?_, attributed.records⟩
    simp [leaveDeeper, none]
  rcases addLog_cases added with ⟨none, rfl⟩ | ⟨current, others, record, contexts, made, followed⟩
  · exact ⟨fun active => absurd none active, left.records⟩
  · have active : (alignment.leaveDeeper log.depth).contexts ≠ [] := by simp [contexts]
    have assigned := assign_attributed left active made
    obtain ⟨addresses, records⟩ := follow_addresses followed
    constructor
    · intro _
      rw [addresses]
      exact assigned.whole active
    · rw [addresses, records]
      exact assigned.records

theorem foldlM_attributed (logs : List StructLog) :
    ∀ {index : Nat} {alignment : Alignment}, alignment.Attributed index →
      (logs.zipIdx index).foldlM (addLog registry inputs) alignment = .ok after →
      after.Attributed (index + logs.length) := by
  induction logs with
  | nil =>
      intro index alignment attributed ran
      cases ran
      exact attributed
  | cons log logs ih =>
      intro index alignment attributed ran
      rw [List.zipIdx_cons] at ran
      obtain ⟨next, added, rest⟩ := bind_eq_ok.mp ran
      have later := ih (addLog_attributed attributed added) rest
      rwa [List.length_cons, Nat.add_comm logs.length, ← Nat.add_assoc]

/-- Each record has the account that its log is attributed to. -/
theorem ofInputs_attributed (aligned : ofInputs registry inputs = .ok alignment) :
    ∀ record ∈ alignment.records.toList,
      alignment.addresses[record.index]? = some record.address := by
  obtain ⟨depth, started, start, ran⟩ := ofInputs_cases aligned
  obtain ⟨code, address, rfl⟩ := start_cases start
  have begun : (empty.enter code address depth).Attributed 0 :=
    ⟨fun _ => rfl, fun _ member => absurd member (Array.not_mem_empty _)⟩
  intro record member
  exact (foldlM_attributed _ begun ran).records record (Array.mem_toList_iff.mp member)

end

end Alignment

namespace Reduction

/-! ### Reports -/

/-- A report replaces what was known of the slots that it tells. -/
theorem getElem?_addReport (report storage : Storage) (slot : Word) :
    (addReport report storage)[slot]? = (report[slot]?).or storage[slot]? := by
  rw [addReport, Std.ExtTreeMap.foldl_eq_foldl_toList, ← Std.ExtTreeMap.insertMany_list_eq_foldl]
  cases told : report[slot]? with
  | some value =>
      exact Std.ExtTreeMap.getElem?_insertMany_list_of_mem Std.ReflCmp.compare_self
        Std.ExtTreeMap.distinct_keys_toList
        (Std.ExtTreeMap.mem_toList_iff_getElem?_eq_some.mpr told)
  | none =>
      apply Std.ExtTreeMap.getElem?_insertMany_list_of_contains_eq_false
      rw [Std.ExtTreeMap.map_fst_toList_eq_keys]
      simpa using told

theorem storageOf_cons (address : ContextAddress) (storage : Storage)
    (known : List (ContextAddress × Storage)) (other : ContextAddress) :
    storageOf ((address, storage) :: known) other =
      if address = other then storage else storageOf known other := by
  rw [storageOf, List.lookup_cons]
  by_cases same : address = other
  · simp [same]
  · have differs : (other == address) = false := by simpa using Ne.symm same
    rw [differs, if_neg same]
    rfl

/-- A report is added to its own account. -/
theorem storageOf_addStorage (known : List (ContextAddress × Storage)) (address : ContextAddress)
    (report : Storage) (other : ContextAddress) :
    storageOf (addStorage known address report) other =
      if address = other then addReport report (storageOf known other)
      else storageOf known other := by
  induction known with
  | nil => exact storageOf_cons address (addReport report ∅) [] other
  | cons entry known ih =>
      obtain ⟨first, storage⟩ := entry
      rw [addStorage]
      by_cases here : first = address
      · subst here
        rw [if_pos rfl, storageOf_cons, storageOf_cons]
        by_cases same : first = other <;> simp only [same, if_true, if_false]
      · rw [if_neg here, storageOf_cons, storageOf_cons, ih]
        by_cases same : first = other
        · subst same
          rw [if_pos rfl, if_pos rfl, if_neg (Ne.symm here)]
        · rw [if_neg same, if_neg same]

/-- What is known of each account after the first reports. -/
def knownAfter (reports : List (ContextAddress × Storage)) (count : Nat) :
    List (ContextAddress × Storage) :=
  (reports.take count).foldl (fun known report => addStorage known report.1 report.2) []

/-- What a report tells of a slot of an account. -/
def told (address : ContextAddress) (slot : Word) (report : ContextAddress × Storage) :
    Option Word :=
  if report.1 = address then report.2[slot]? else none

section

variable {reports : List (ContextAddress × Storage)}

theorem knownAfter_add (count more : Nat) :
    knownAfter reports (count + more) = ((reports.drop count).take more).foldl
      (fun known report => addStorage known report.1 report.2) (knownAfter reports count) := by
  rw [knownAfter, List.take_add, List.foldl_append]
  rfl

/-- One more report. -/
theorem getElem?_knownAfter_succ (count : Nat) (address : ContextAddress) (slot : Word) :
    (storageOf (knownAfter reports (count + 1)) address)[slot]? =
      ((reports[count]?).bind (told address slot)).or
        (storageOf (knownAfter reports count) address)[slot]? := by
  rw [knownAfter_add, List.take_one, List.head?_drop]
  cases reports[count]? with
  | none => rfl
  | some report =>
      simp only [Option.toList_some, List.foldl_cons, List.foldl_nil, storageOf_addStorage,
        Option.bind_some, told]
      split
      · exact getElem?_addReport _ _ slot
      · rfl

/-- A slot is not known if no report tells it. -/
theorem getElem?_knownAfter_eq_none (count : Nat) (address : ContextAddress) (slot : Word) :
    (storageOf (knownAfter reports count) address)[slot]? = none ↔
      ∀ index < count, (reports[index]?).bind (told address slot) = none := by
  induction count with
  | zero => simp [knownAfter, storageOf]
  | succ count ih =>
      rw [getElem?_knownAfter_succ, Option.or_eq_none_iff, ih]
      constructor
      · rintro ⟨last, earlier⟩ index below
        by_cases same : index = count
        · rw [same, last]
        · exact earlier index (by omega)
      · intro none
        exact ⟨none count (by omega), fun index below => none index (by omega)⟩

/-- A slot has a value if a report tells it and no later one tells the slot. -/
theorem getElem?_knownAfter_eq_some (count : Nat) (address : ContextAddress) (slot value : Word) :
    (storageOf (knownAfter reports count) address)[slot]? = some value ↔
      ∃ index < count, (reports[index]?).bind (told address slot) = some value ∧
        ∀ later < count, index < later → (reports[later]?).bind (told address slot) = none := by
  induction count with
  | zero => simp [knownAfter, storageOf]
  | succ count ih =>
      rw [getElem?_knownAfter_succ]
      cases last : (reports[count]?).bind (told address slot) with
      | none =>
          rw [Option.none_or, ih]
          constructor
          · rintro ⟨index, below, tells, final⟩
            refine ⟨index, by omega, tells, fun later bound above => ?_⟩
            by_cases same : later = count
            · rw [same, last]
            · exact final later (by omega) above
          · rintro ⟨index, below, tells, final⟩
            have earlier : index ≠ count := by
              rintro rfl
              rw [last] at tells
              cases tells
            exact ⟨index, by omega, tells, fun later bound above => final later (by omega) above⟩
      | some other =>
          rw [Option.some_or]
          constructor
          · intro same
            exact ⟨count, by omega, last.trans same, fun later bound above => by omega⟩
          · rintro ⟨index, below, tells, final⟩
            by_cases same : index = count
            · rw [← last, ← same, tells]
            · have none := final count (by omega) (by omega)
              rw [last] at none
              cases none

end

/-! ### Replay -/

/-- Whether the first reports, and no later ones, have been taken in. -/
structure Merges (reports : List (ContextAddress × Storage)) (count : Nat) (state : Reduction) :
    Prop where
  merged : state.merged = count
  storage : state.storage = knownAfter reports count
  reported : state.reported = reports.drop count

/-- Whether a step is taken at a record and shows the storage of the record's account. -/
structure Displays (known : List (ContextAddress × Storage)) (record : Record) (step : Step) :
    Prop where
  index : step.index = record.index
  address : step.address = record.address
  storage : step.snapshot.storage = storageOf known record.address

/-- Whether a state comes from another by steps at a record that show the storage known in both. -/
structure Proceeds (record : Record) (before after : Reduction) : Prop where
  merged : after.merged = before.merged
  storage : after.storage = before.storage
  reported : after.reported = before.reported
  steps : ∀ step ∈ after.steps, step ∈ before.steps ∨ Displays before.storage record step

section

variable {record : Record} {before state after : Reduction}
  {reports : List (ContextAddress × Storage)} {count : Nat}

theorem Proceeds.refl (record : Record) (state : Reduction) : Proceeds record state state :=
  ⟨rfl, rfl, rfl, fun _ member => .inl member⟩

theorem Proceeds.emit (proceeds : Proceeds record before state) (kind : StepKind) :
    Proceeds record before (state.emit record kind) := by
  refine ⟨proceeds.merged, proceeds.storage, proceeds.reported, fun step member => ?_⟩
  rcases Array.mem_push.mp member with member | rfl
  · exact proceeds.steps step member
  · refine .inr ⟨rfl, rfl, ?_⟩
    rw [← proceeds.storage]
    rfl

theorem Proceeds.leave (proceeds : Proceeds record before state) :
    Proceeds record before state.leaveFunction := by
  unfold leaveFunction
  split
  · exact proceeds
  · exact ⟨proceeds.merged, proceeds.storage, proceeds.reported, proceeds.steps⟩

theorem Proceeds.enterFunction (proceeds : Proceeds record before state) {function : Node}
    (entered : state.enterFunction record function = .ok after) :
    Proceeds record before after := by
  have bound : Proceeds record before (state.bindGlobals record) := by
    unfold bindGlobals
    split
    · exact proceeds
    · exact ⟨proceeds.merged, proceeds.storage, proceeds.reported, proceeds.steps⟩
  obtain ⟨frame, made, _⟩ := enterFunction_cases entered
  rw [made]
  exact ⟨bound.merged, bound.storage, bound.reported, bound.steps⟩

/-- Only taking in reports changes what is known of the storage. -/
theorem takeStep_proceeds {kind : StepKind} (proceeds : Proceeds record before state)
    (taken : state.takeStep record kind = .ok after) : Proceeds record before after := by
  rcases takeStep_cases taken with ⟨_, rfl⟩ | ⟨_, _, rfl⟩ | ⟨_, function, inner, _, entered, rfl⟩ |
    ⟨_, _, rfl⟩ | ⟨_, _, left⟩
  · exact proceeds.emit kind
  · exact proceeds
  · exact (proceeds.enterFunction entered).emit .functionIn
  · apply leaveWhile_preserves (motive := Proceeds record before) _ state proceeds
    exact fun _ proceeds => (proceeds.emit .functionOut).leave
  · obtain ⟨frame, frames, _, _, rfl⟩ := exitFunction_cases left
    exact (proceeds.emit .functionOut).leave

theorem mergeThrough_merges (merges : Merges reports count state) {index : Nat}
    (below : count ≤ index + 1) : Merges reports (index + 1) (state.mergeThrough index) := by
  obtain ⟨rfl, storage, reported⟩ := merges
  have whole : state.merged + (index + 1 - state.merged) = index + 1 := by omega
  constructor
  · exact whole
  · rw [← whole, knownAfter_add, ← storage, ← reported]
    rfl
  · rw [← whole, ← List.drop_drop, ← reported]
    rfl

/-- A step takes in all reports up to its own log, and no later ones. -/
theorem replayStep_displays {kind : StepKind} (merges : Merges reports count state)
    (below : count ≤ record.index + 1) (stepped : replayStep record state kind = .ok after) :
    Merges reports (record.index + 1) after ∧ ∀ step ∈ after.steps, step ∈ state.steps ∨
      Displays (knownAfter reports (record.index + 1)) record step := by
  have ready := mergeThrough_merges merges below
  have dropped : Proceeds record (state.mergeThrough record.index)
      ((state.mergeThrough record.index).dropUnwound record) := by
    apply leaveWhile_preserves (motive := Proceeds record _) _ _ (.refl record _)
    exact fun _ proceeds => proceeds.leave
  have proceeds := takeStep_proceeds dropped stepped
  constructor
  · exact ⟨proceeds.merged.trans ready.merged, proceeds.storage.trans ready.storage,
      proceeds.reported.trans ready.reported⟩
  · rw [← ready.storage]
    exact proceeds.steps

theorem foldlM_replayStep_displays (kinds : List StepKind) :
    ∀ {state : Reduction} {count : Nat}, Merges reports count state → count ≤ record.index + 1 →
      kinds.foldlM (replayStep record) state = .ok after →
      (∃ last ≤ record.index + 1, Merges reports last after) ∧
        ∀ step ∈ after.steps, step ∈ state.steps ∨
          Displays (knownAfter reports (record.index + 1)) record step := by
  induction kinds with
  | nil =>
      intro state count merges below ran
      cases ran
      exact ⟨⟨count, below, merges⟩, fun _ member => .inl member⟩
  | cons kind kinds ih =>
      intro state count merges below ran
      obtain ⟨middle, stepped, rest⟩ := bind_eq_ok.mp ran
      obtain ⟨here, shown⟩ := replayStep_displays merges below stepped
      obtain ⟨last, later⟩ := ih here (Nat.le_refl _) rest
      refine ⟨last, fun step member => ?_⟩
      rcases later step member with member | displays
      · exact shown step member
      · exact .inr displays

theorem replay_displays {kinds : List StepKind} (merges : Merges reports count state)
    (below : count ≤ record.index + 1) (replayed : state.replay (record, kinds) = .ok after) :
    (∃ last ≤ record.index + 1, Merges reports last after) ∧
      ∀ step ∈ after.steps, step ∈ state.steps ∨
        Displays (knownAfter reports (record.index + 1)) record step := by
  obtain ⟨middle, registered, ran⟩ := bind_eq_ok.mp replayed
  have declared : Merges reports count middle ∧ middle.steps = state.steps := by
    rcases registerLocal_cases registered with rfl | ⟨_, _, _, _, _, _, rfl⟩
    · exact ⟨merges, rfl⟩
    · exact ⟨⟨merges.merged, merges.storage, merges.reported⟩, rfl⟩
  rw [← declared.2]
  exact foldlM_replayStep_displays kinds declared.1 below ran

/-- A whole replay. The records are in the order of their logs, so none asks for fewer reports than
have been taken in before it. -/
theorem foldlM_replay_displays (entries : List (Record × List StepKind)) :
    ∀ {state : Reduction} {count : Nat}, Merges reports count state →
      (entries.map Prod.fst).Pairwise (fun first second => first.index < second.index) →
      (∀ entry ∈ entries, count ≤ entry.1.index + 1) →
      entries.foldlM replay state = .ok after →
      ∀ step ∈ after.steps, step ∈ state.steps ∨ ∃ record ∈ entries.map Prod.fst,
        Displays (knownAfter reports (record.index + 1)) record step := by
  induction entries with
  | nil =>
      intro state count _ _ _ ran step member
      cases ran
      exact .inl member
  | cons entry entries ih =>
      obtain ⟨record, kinds⟩ := entry
      intro state count merges ordered below ran step member
      obtain ⟨middle, replayed, rest⟩ := bind_eq_ok.mp ran
      obtain ⟨first, ordered⟩ := List.pairwise_cons.mp ordered
      obtain ⟨⟨last, bound, merged⟩, shown⟩ :=
        replay_displays merges (below _ List.mem_cons_self) replayed
      have later : ∀ entry ∈ entries, last ≤ entry.1.index + 1 := by
        intro entry inside
        have after := first entry.1 (List.mem_map_of_mem inside)
        omega
      rcases ih merged ordered later rest step member with member | ⟨other, inside, displays⟩
      · exact (shown step member).imp_right fun displays => ⟨record, List.mem_cons_self, displays⟩
      · exact .inr ⟨other, List.mem_cons_of_mem _ inside, displays⟩

end

end Reduction

/-- What a log reports of a slot, if it runs on the given account. -/
def Alignment.reportAt? (alignment : Alignment) (logs : List StructLog) (address : ContextAddress)
    (slot : Word) (index : Nat) : Option Word :=
  if alignment.addresses[index]? = some address then
    (logs[index]?).bind fun log => log.storage[slot]?
  else none

theorem Alignment.told_reported (inputs : TraceInputs) (alignment : Alignment)
    (address : ContextAddress) (slot : Word) (index : Nat) :
    ((Reduction.start inputs alignment).reported[index]?).bind (Reduction.told address slot) =
      alignment.reportAt? inputs.trace.logs address slot index := by
  simp only [Reduction.start, reportAt?, List.zip, List.getElem?_zipWith, Array.getElem?_toList,
    List.getElem?_map]
  cases alignment.addresses[index]? with
  | none => rfl
  | some other =>
      cases inputs.trace.logs[index]? with
      | none => simp
      | some log => simp [Reduction.told]

/-- What is known of a slot is what the last log reports that runs on the account. -/
theorem Alignment.getElem?_known (inputs : TraceInputs) (alignment : Alignment) (last : Nat)
    (address : ContextAddress) (slot value : Word) :
    (Reduction.storageOf (Reduction.knownAfter (Reduction.start inputs alignment).reported
        (last + 1)) address)[slot]? = some value ↔
      ∃ index ≤ last, alignment.reportAt? inputs.trace.logs address slot index = some value ∧
        ∀ later ≤ last, index < later →
          alignment.reportAt? inputs.trace.logs address slot later = none := by
  have known := @Reduction.getElem?_knownAfter_eq_some
    (Reduction.start inputs alignment).reported (last + 1) address slot value
  simpa only [told_reported, Nat.lt_succ_iff] using known

/-- A step is taken at a log that runs on its account, and shows what is known of the account after
that log. -/
theorem reduce_displays {registry : Registry} {inputs : TraceInputs} {steps : List Step}
    (reduced : reduce registry inputs = .ok steps) :
    ∃ alignment, Alignment.ofInputs registry inputs = .ok alignment ∧
      ∀ step ∈ steps, alignment.addresses[step.index]? = some step.address ∧
        step.snapshot.storage = Reduction.storageOf
          (Reduction.knownAfter (Reduction.start inputs alignment).reported (step.index + 1))
          step.address := by
  obtain ⟨alignment, aligned, rest⟩ := bind_eq_ok.mp reduced
  obtain ⟨state, replayed, made⟩ := bind_eq_ok.mp rest
  cases made
  refine ⟨alignment, aligned, fun step member => ?_⟩
  let begun := Reduction.start inputs alignment
  have merges : Reduction.Merges begun.reported 0 begun := ⟨rfl, rfl, rfl⟩
  have ordered := (Alignment.ofInputs_threaded aligned).2
  rw [← Classification.ofRecords_records alignment.records.toList] at ordered
  obtain ⟨record, inside, index, address, storage⟩ :=
    (Reduction.foldlM_replay_displays _ merges ordered (fun _ _ => Nat.zero_le _) replayed step
      (Array.mem_toList_iff.mp member)).resolve_left (Array.not_mem_empty step)
  rw [Classification.ofRecords_records] at inside
  rw [index, address]
  exact ⟨Alignment.ofInputs_attributed aligned record inside, storage⟩

/-- The storage that a step shows. Its account is the one that its log runs on. It has the slots
that a log reports which runs on the account and is not later than the step's, each with the value
that the last one of these logs reports. -/
theorem storage_carried (registry : Registry) (inputs : TraceInputs) (steps : List Step)
    (reduced : reduce registry inputs = .ok steps) :
    ∃ alignment, Alignment.ofInputs registry inputs = .ok alignment ∧
      ∀ step ∈ steps, alignment.addresses[step.index]? = some step.address ∧
        let reportAt? := alignment.reportAt? inputs.trace.logs step.address
        ∀ slot,
          (slot ∈ step.snapshot.storage ↔
            ∃ index ≤ step.index, ∃ value, reportAt? slot index = some value) ∧
          ∀ value, step.snapshot.storage[slot]? = some value ↔
            ∃ index ≤ step.index, reportAt? slot index = some value ∧
              ∀ later ≤ step.index, index < later → reportAt? slot later = none := by
  obtain ⟨alignment, aligned, displays⟩ := reduce_displays reduced
  refine ⟨alignment, aligned, fun step member => ?_⟩
  obtain ⟨address, storage⟩ := displays step member
  refine ⟨address, fun slot => ?_⟩
  have told := Alignment.told_reported inputs alignment step.address
  have missing := @Reduction.getElem?_knownAfter_eq_none
    (Reduction.start inputs alignment).reported (step.index + 1) step.address slot
  simp only [told, ← storage, Nat.lt_succ_iff] at missing
  refine ⟨?_, storage ▸ alignment.getElem?_known inputs step.index step.address slot⟩
  rw [Std.ExtTreeMap.mem_iff_isSome_getElem?, Option.isSome_iff_ne_none, Ne, missing]
  simp only [not_forall, exists_prop, Option.ne_none_iff_exists', ← ne_eq]

open Activation

namespace Sample

/-- A statement whose log reports a slot. -/
def stores (depth : Nat) (slot value : Word) : StructLog :=
  { log "SSTORE" 1 depth [] with storage := Std.ExtTreeMap.empty.insert slot value }

def called (slot value : Word) : Body :=
  .plain (stores 2 slot value) (.exit (log "JUMP" 3 2 []))

/-- The function stores a value; it is called at the other account, and there by a delegated call,
and each of the calls stores a value. -/
def storing : Run where
  before := []
  entry := entry 1
  body := .plain (stores 1 0 7) <|
    .message call [] (entry 2) (called 0 9) (log "STOP" 5 2 []) <|
    .message delegate [] (entry 2) (called 1 5) (log "STOP" 5 2 []) <|
    .exit (log "JUMP" 3 1 [])
  halt := log "STOP" 5 1 []

section

variable {known : Registry} {stable : TraceInputs} {id : BytecodeId} (places : Places known id)

include places

theorem stores_wellFormed (depth : Nat) (slot value : Word) (halt : StructLog) {rest : Body}
    (formed : rest.WellFormed known stable id depth halt (entry depth).function) :
    (Body.plain (stores depth slot value) rest).WellFormed known stable id depth halt
      (entry depth).function :=
  ⟨⟨rfl, rfl, rfl, rfl⟩,
    ifMapped_of_mapped places.statement ⟨rfl, fun declares => nomatch declares⟩, formed⟩

theorem stores_leads (depth : Nat) (slot value : Word) (halt : StructLog) (rest : Body) :
    (Body.plain (stores depth slot value) rest).Leads known id halt := by
  refine ⟨ifMapped_of_mapped places.statement (fun kind => nomatch kind), ?_⟩
  intro missing
  exact nomatch places.statement.symm.trans missing

/-- The called function stores a value and returns. -/
theorem called_wellFormed (slot value : Word) (halt : StructLog) :
    (called slot value).WellFormed known stable id 2 halt (entry 2).function :=
  stores_wellFormed places 2 slot value _ (exit_wellFormed places 2 _)

theorem called_halting (slot value : Word) :
    Halting known id 2 (called slot value) (log "STOP" 5 2 []) :=
  ⟨rfl, Or.inl rfl, Or.inl trivial, ifMapped_of_unmapped places.outside⟩

theorem storing_wellFormed (enters : CallsEnter known stable id) :
    storing.WellFormed known stable id 1 where
  before := by simp [storing]
  entry := entry_wellFormed places 1
  leads := stores_leads places 1 0 7 _ _
  body := by
    apply stores_wellFormed places 1 0 7
    apply message_wellFormed places _ ⟨rfl, rfl⟩ rfl places.call (enters.called id).1
      (stores_leads places 2 0 9 _ _) (called_wellFormed places 0 9 _) (called_halting places 0 9)
    apply message_wellFormed places _ ⟨rfl, rfl⟩ rfl places.call (enters.delegated id).1
      (stores_leads places 2 1 5 _ _) (called_wellFormed places 1 5 _) (called_halting places 1 5)
    exact exit_wellFormed places 1 _
  halting := ⟨rfl, Or.inl rfl, Or.inl trivial, ifMapped_of_unmapped places.outside⟩

end

/-- The accounts that the logs run on. -/
def accounts : List ContextAddress :=
  List.replicate 3 (.deployed 0x10) ++ List.replicate 4 (.deployed 0x20) ++
    List.replicate 7 (.deployed 0x10)

theorem storing_addresses {known : Registry} {stable : TraceInputs} {id : BytecodeId}
    (enters : CallsEnter known stable id) :
    (storing.execution.located known stable id (.deployed 0x10) 1).map
      (fun located => located.visit.context.address) = accounts := by
  simp only [storing, called, entry, Run.execution, Entry.execution, Body.execution, chain,
    List.foldr_nil, Execution.located, Execution.executed, Execution.root,
    (enters.called _).1, (enters.delegated _).1]
  rfl

/-- What a log reports of a slot, if it runs on the given account. -/
def report? (account : ContextAddress) (slot : Word) (index : Nat) : Option Word :=
  if accounts[index]? = some account then
    (storing.execution.logs[index]?).bind fun log => log.storage[slot]?
  else none

theorem storing_exits {known : Registry} {stable : TraceInputs} {id : BytecodeId}
    (enters : CallsEnter known stable id) :
    (events 0 (storing.expected known stable id (.deployed 0x10))).map
        (fun event => (event.1, event.2.1)) =
      [(0, .functionIn), (2, .jump), (3, .functionIn), (5, .functionOut), (7, .jump),
        (8, .functionIn), (10, .functionOut), (12, .functionOut)] := by
  simp only [Run.expected, Body.expected, storing, called, (enters.called _).1,
    (enters.delegated _).1, Option.getD_some]
  rfl

end Sample

/-- The exits of the called function and of the calling one. The other account shows what was stored
there, and the calling one what it has stored itself and what the delegated call has stored. -/
theorem storage_carried_delegate :
    ∃ steps, reduce Sample.registry (Sample.inputs Sample.storing.execution.logs) = .ok steps ∧
      (∃ step ∈ steps, step.index = 5 ∧ step.address = .deployed 0x20 ∧
        step.snapshot.storage[(0 : Word)]? = some 9 ∧ (1 : Word) ∉ step.snapshot.storage) ∧
      ∃ step ∈ steps, step.index = 12 ∧ step.address = .deployed 0x10 ∧
        step.snapshot.storage[(0 : Word)]? = some 7 ∧
        step.snapshot.storage[(1 : Word)]? = some 5 := by
  have enters := Sample.callsEnter Sample.storing.execution.logs
  have runs := Sample.runs Sample.storing.execution.logs
  have formed := Sample.storing_wellFormed Sample.places enters
  obtain ⟨steps, reduced, shown⟩ := run_reduces runs formed rfl
  obtain ⟨alignment, aligned, carried⟩ := storage_carried _ _ steps reduced
  obtain ⟨_, same, addresses, _⟩ := Execution.ofInputs_located runs (run_wellFormed formed)
    (run_halts Sample.storing) rfl
  cases aligned.symm.trans same
  rw [Sample.storing_addresses enters] at addresses
  have listed : ∀ index, index = 5 ∨ index = 12 → ∃ step ∈ steps, step.index = index := by
    intro index exits
    apply @Shows.exists_step 0 index _ steps .functionOut shown
    rw [Sample.storing_exits enters]
    rcases exits with rfl | rfl <;> decide
  obtain ⟨inner, innerListed, innerIndex⟩ := listed 5 (Or.inl rfl)
  obtain ⟨outer, outerListed, outerIndex⟩ := listed 12 (Or.inr rfl)
  obtain ⟨innerAddress, innerStorage⟩ := carried inner innerListed
  obtain ⟨outerAddress, outerStorage⟩ := carried outer outerListed
  rw [innerIndex, ← Array.getElem?_toList, addresses] at innerAddress
  rw [outerIndex, ← Array.getElem?_toList, addresses] at outerAddress
  have innerAccount : inner.address = .deployed 0x20 := (Option.some.inj innerAddress).symm
  have outerAccount : outer.address = .deployed 0x10 := (Option.some.inj outerAddress).symm
  have reports (account : ContextAddress) (slot : Word) (index : Nat) :
      alignment.reportAt? (Sample.inputs Sample.storing.execution.logs).trace.logs account slot
        index = Sample.report? account slot index := by
    rw [Alignment.reportAt?, ← Array.getElem?_toList, addresses]
    rfl
  simp only [innerIndex, innerAccount, reports] at innerStorage
  simp only [outerIndex, outerAccount, reports] at outerStorage
  refine ⟨steps, reduced, ⟨inner, innerListed, innerIndex, innerAccount, ?_, ?_⟩,
    outer, outerListed, outerIndex, outerAccount, ?_, ?_⟩
  · exact ((innerStorage 0).2 9).mpr ⟨4, by decide +kernel⟩
  · rw [(innerStorage 1).1]
    rintro ⟨index, below, value, tells⟩
    have none : ∀ index ≤ 5, Sample.report? (.deployed 0x20) 1 index = none := by decide +kernel
    rw [none index below] at tells
    cases tells
  · exact ((outerStorage 0).2 7).mpr ⟨1, by decide +kernel⟩
  · exact ((outerStorage 1).2 5).mpr ⟨9, by decide +kernel⟩

end SolTrace
