import SolTrace.Proofs.Trace.StorageHistory
/-!
Message calls that fail. The logs inside a call are those behind the calling one, up to the one that
ends it. What they report of an account's storage is shown after the call as well, also where the
call has failed and nothing of it has been kept.
-/
set_option autoImplicit false

namespace SolTrace

namespace Alignment

/-! ### The contexts at a log -/

/-- The alignment after the first logs of a trace. -/
def afterLogs (registry : Registry) (inputs : TraceInputs) (count : Nat) :
    Except Error Alignment := do
  let logs := inputs.trace.logs
  let started ← start registry inputs ((logs.head?.map StructLog.depth).getD 1)
  (logs.zipIdx.take count).foldlM (addLog registry inputs) started

/-- Whether a log is executed in an alignment: the one after the logs before it, without the
contexts that are deeper than the log. -/
def Executing (registry : Registry) (inputs : TraceInputs) (index : Nat) (alignment : Alignment) :
    Prop :=
  ∃ before log, afterLogs registry inputs index = .ok before ∧
    inputs.trace.logs[index]? = some log ∧ alignment = before.leaveDeeper log.depth

/-- Whether the context with a number is active at a log. -/
def ActiveAt (registry : Registry) (inputs : TraceInputs) (index id : Nat) : Prop :=
  ∃ alignment, Executing registry inputs index alignment ∧ id ∈ alignment.activeIds

section

variable {registry : Registry} {inputs : TraceInputs} {alignment first second : Alignment}

theorem foldlM_leadsTo (entries : List (StructLog × Nat)) :
    ∀ {before after : Alignment}, before.Numbered →
      entries.foldlM (addLog registry inputs) before = .ok after → LeadsTo before after := by
  induction entries with
  | nil =>
      intro before after numbered ran
      cases ran
      exact .refl numbered
  | cons entry entries ih =>
      intro before after numbered ran
      obtain ⟨next, added, rest⟩ := bind_eq_ok.mp ran
      obtain ⟨middle, left, followed, _⟩ := addLog_leadsTo numbered added
      exact (left.trans followed).trans (ih followed.numbered rest)

theorem afterLogs_numbered {count : Nat} (ran : afterLogs registry inputs count = .ok alignment) :
    alignment.Numbered := by
  obtain ⟨started, start, rest⟩ := bind_eq_ok.mp ran
  exact (foldlM_leadsTo _ (start_numbered start).1 rest).numbered

/-- More logs are taken in after the first ones. -/
theorem afterLogs_add {count more : Nat} (ran : afterLogs registry inputs count = .ok first)
    (further : afterLogs registry inputs (count + more) = .ok second) :
    ((inputs.trace.logs.zipIdx.drop count).take more).foldlM (addLog registry inputs) first =
      .ok second := by
  obtain ⟨started, start, before⟩ := bind_eq_ok.mp ran
  obtain ⟨again, restart, after⟩ := bind_eq_ok.mp further
  cases start.symm.trans restart
  rw [List.take_add, List.foldlM_append] at after
  obtain ⟨middle, here, rest⟩ := bind_eq_ok.mp after
  cases before.symm.trans here
  exact rest

/-- Every log of a trace that is aligned is executed. -/
theorem executing_of_aligned (aligned : ofInputs registry inputs = .ok alignment) {index : Nat}
    (inside : index < inputs.trace.logs.length) : ∃ here, Executing registry inputs index here := by
  obtain ⟨started, start, rest⟩ := bind_eq_ok.mp aligned
  obtain ⟨last, ran, _⟩ := bind_eq_ok.mp rest
  rw [← List.take_append_drop index inputs.trace.logs.zipIdx, List.foldlM_append] at ran
  obtain ⟨before, taken, _⟩ := bind_eq_ok.mp ran
  exact ⟨_, before, _, bind_eq_ok.mpr ⟨started, start, taken⟩, List.getElem?_eq_getElem inside, rfl⟩

theorem Executing.unique {index : Nat} (here : Executing registry inputs index first)
    (again : Executing registry inputs index second) : first = second := by
  obtain ⟨before, log, ran, found, rfl⟩ := here
  obtain ⟨_, _, reran, refound, rfl⟩ := again
  cases ran.symm.trans reran
  cases found.symm.trans refound
  rfl

theorem Executing.numbered {index : Nat} (executing : Executing registry inputs index alignment) :
    alignment.Numbered := by
  obtain ⟨before, log, ran, _, rfl⟩ := executing
  have left : LeadsTo before (before.leaveDeeper log.depth) :=
    .of_suffix (afterLogs_numbered ran) (List.dropWhile_suffix _) rfl
  exact left.numbered

/-- From a log to a later one: the first one has been added, and the others have been taken in. -/
theorem Executing.later {index later : Nat} (here : Executing registry inputs index first)
    (there : Executing registry inputs later second) (before : index < later) :
    ∃ outset log next, inputs.trace.logs[index]? = some log ∧ first = outset.leaveDeeper log.depth ∧
      addLog registry inputs outset (log, index) = .ok next ∧
      (next.Numbered → LeadsTo next second) := by
  obtain ⟨outset, log, ran, found, rfl⟩ := here
  obtain ⟨last, laterLog, further, _, rfl⟩ := there
  obtain ⟨more, rfl⟩ : ∃ more, later = index + (more + 1) := ⟨later - index - 1, by omega⟩
  have rest := afterLogs_add ran further
  have inside : index < inputs.trace.logs.zipIdx.length := by
    rw [List.length_zipIdx]
    exact (List.getElem?_eq_some_iff.mp found).1
  have entry : inputs.trace.logs.zipIdx[index] = (log, index) := by
    simpa using (List.getElem?_eq_some_iff.mp found).2
  rw [List.drop_eq_getElem_cons inside, entry, List.take_succ_cons] at rest
  obtain ⟨next, added, rest⟩ := bind_eq_ok.mp rest
  refine ⟨outset, log, next, found, rfl, added, fun numbered => ?_⟩
  have taken := foldlM_leadsTo _ numbered rest
  exact taken.trans (.of_suffix taken.numbered (List.dropWhile_suffix _) rfl)

/-- A log leads on from the contexts that it is executed in. -/
theorem addLog_continues {log : StructLog} {index : Nat}
    (numbered : (alignment.leaveDeeper log.depth).Numbered)
    (added : addLog registry inputs alignment (log, index) = .ok first) :
    LeadsTo (alignment.leaveDeeper log.depth) first := by
  rcases addLog_cases added with ⟨_, rfl⟩ | ⟨current, others, record, _, _, followed⟩
  · exact .refl numbered
  · have assigned : LeadsTo (alignment.leaveDeeper log.depth)
        ((alignment.leaveDeeper log.depth).assign current record) :=
      .of_suffix numbered List.suffix_rfl rfl
    exact assigned.trans (follow_leadsTo assigned.numbered followed).1

theorem Executing.leadsTo {index later : Nat} (here : Executing registry inputs index first)
    (there : Executing registry inputs later second) (before : index ≤ later) :
    LeadsTo first second := by
  rcases Nat.lt_or_eq_of_le before with before | rfl
  · obtain ⟨outset, log, next, _, rfl, added, onwards⟩ := here.later there before
    have continues := addLog_continues here.numbered added
    exact continues.trans (onwards continues.numbered)
  · obtain rfl := here.unique there
    exact .refl here.numbered

/-- A context that is left by a halting log is not active at any later one. -/
theorem Executing.left {index later id : Nat} {log : StructLog}
    (here : Executing registry inputs index first) (found : inputs.trace.logs[index]? = some log)
    (halts : log.isHalt = true) (innermost : first.activeIds.head? = some id)
    (there : Executing registry inputs later second) (before : index < later) :
    id ∉ second.activeIds := by
  have numbered := here.numbered
  obtain ⟨outset, again, next, refound, rfl, added, onwards⟩ := here.later there before
  cases found.symm.trans refound
  have continues := addLog_continues numbered added
  rcases addLog_cases added with ⟨none, rfl⟩ | ⟨current, others, record, contexts, _, followed⟩
  · simp [activeIds, none] at innermost
  · obtain rfl : current.id = id := by simpa [activeIds, contexts] using innermost
    have tail : next.activeIds = others.map Context.id := by
      rw [follow, if_pos halts] at followed
      cases followed
      simp [activeIds, leave, assign, contexts]
    -- The contexts around it have smaller numbers, and a number is not given twice.
    have gone : current.id ∉ next.activeIds := by
      have descending := numbered.descending
      rw [activeIds, contexts, List.map_cons, List.pairwise_cons] at descending
      rw [tail]
      exact fun member => Nat.lt_irrefl _ (descending.1 _ member)
    have known : current.id < next.entered := by
      refine Nat.lt_of_lt_of_le (numbered.below current.id ?_) continues.grows
      simp [activeIds, contexts]
    intro active
    exact gone ((onwards continues.numbered).resumes current.id active known).1

end

end Alignment

/-! ### Failed calls -/

/-- Whether the executing context ends with a log and nothing that it has done is kept. -/
def StructLog.Fails (log : StructLog) : Prop :=
  log.op = "REVERT" ∨ log.error.isSome = true

theorem StructLog.Fails.isHalt {log : StructLog} (fails : log.Fails) : log.isHalt = true := by
  rcases fails with op | error
  · simp [StructLog.isHalt, op]
  · simp [StructLog.isHalt, error]

open SolTrace.Alignment (Executing ActiveAt)

/-- A message call that fails: the log at `site` calls and enters a context, which ends by failing
at the log at `last`. -/
structure FailedCall (registry : Registry) (inputs : TraceInputs) (site last id : Nat) : Prop where
  calls : ∃ log, inputs.trace.logs[site]? = some log ∧ log.isCall = true
  enters : ¬ ActiveAt registry inputs site id ∧ ActiveAt registry inputs (site + 1) id
  fails : ∃ log alignment, inputs.trace.logs[last]? = some log ∧ log.Fails ∧
    Executing registry inputs last alignment ∧ alignment.activeIds.head? = some id

/-- The logs at which the context of a call is active are those after the calling one up to the one
that ends it. -/
theorem FailedCall.inside {registry : Registry} {inputs : TraceInputs} {alignment : Alignment}
    {site last id : Nat} (aligned : Alignment.ofInputs registry inputs = .ok alignment)
    (call : FailedCall registry inputs site last id) (index : Nat) :
    ActiveAt registry inputs index id ↔ site < index ∧ index ≤ last := by
  obtain ⟨siteLog, called, _⟩ := call.calls
  obtain ⟨outside, beginning, begins, beginsActive⟩ := call.enters
  obtain ⟨lastLog, ending, found, fails, there, innermost⟩ := call.fails
  have endsActive : id ∈ ending.activeIds := List.mem_of_mem_head? innermost
  constructor
  · rintro ⟨here, executes, active⟩
    constructor
    · -- A context that was active before the call would be active at the calling log still.
      by_contra earlier
      obtain ⟨calling, calls⟩ := Alignment.executing_of_aligned aligned
        (List.getElem?_eq_some_iff.mp called).1
      have known := executes.numbered.below id active
      have grows := (executes.leadsTo calls (by omega)).grows
      have resumes := (calls.leadsTo begins (by omega)).resumes
      exact outside ⟨calling, calls, (resumes id beginsActive (by omega)).1⟩
    · by_contra later
      exact there.left found fails.isHalt innermost executes (by omega) active
  · rintro ⟨after, before⟩
    have bound := (List.getElem?_eq_some_iff.mp found).1
    obtain ⟨here, executes⟩ := Alignment.executing_of_aligned aligned (by omega : index < _)
    have known := begins.numbered.below id beginsActive
    have grows := (begins.leadsTo executes after).grows
    have resumes := (executes.leadsTo there before).resumes
    exact ⟨here, executes, (resumes id endsActive (by omega)).1⟩

/-! ### A call between ordinary logs -/

namespace Alignment

section

variable {registry : Registry} {inputs : TraceInputs} {visit : Visit} {outer : List Visit}

/-- Ordinary logs stay in the innermost context. -/
theorem foldlM_ordinary (inputs : TraceInputs) (known : visit.context.code ∈ registry.codes)
    (logs : List StructLog) : ∀ (index : Nat) {before : Alignment},
      Within before (visit.context.depth + 1) (visit :: outer) →
      (∀ log ∈ logs, Activation.Ordinary visit.context.depth log) →
      ∃ after, (logs.zipIdx index).foldlM (addLog registry inputs) before = .ok after ∧
        Within after (visit.context.depth + 1) (visit :: outer) ∧
        after.entered = before.entered := by
  induction logs with
  | nil => exact fun _ _ within _ => ⟨_, rfl, within, rfl⟩
  | cons log logs ih =>
      intro index before within ordinary
      obtain ⟨depth, isHalt, isCall, isCreate⟩ := ordinary log List.mem_cons_self
      obtain ⟨next, contexts, extended, added⟩ :=
        addLog_eq registry inputs index log within depth known
      have onwards : Within next (visit.context.depth + 1) (visit :: outer) :=
        ⟨[], contexts, by simp⟩
      obtain ⟨after, ran, inside, entered⟩ := ih (index + 1) onwards
        fun other member => ordinary other (List.mem_cons_of_mem _ member)
      refine ⟨after, ?_, inside, entered.trans extended.entered⟩
      rw [List.zipIdx_cons]
      exact bind_eq_ok.mpr ⟨next, by simp [added, follow, isHalt, isCall, isCreate], ran⟩

/-- A call enters the context of the called code. -/
theorem addLog_enters {site : StructLog} {callee : BytecodeId} (index : Nat) {before : Alignment}
    (known : visit.context.code ∈ registry.codes)
    (within : Within before (visit.context.depth + 1) (visit :: outer))
    (depth : site.depth = visit.context.depth) (continues : site.isHalt = false)
    (enters : Execution.innerCode? registry inputs visit.context.code site = some callee)
    (identified : Execution.Identified registry inputs visit.context.code site) :
    ∃ after, addLog registry inputs before (site, index) = .ok after ∧
      Within after (visit.context.depth + 1 + 1)
        (⟨index + 1, before.entered, callee,
          Execution.innerAddress visit.context.address index site, visit.context.depth + 1⟩ ::
            visit :: outer) := by
  obtain ⟨calling, contexts, extended, added⟩ :=
    addLog_eq registry inputs index site within depth known
  rw [follow_enters registry inputs calling visit outer index site continues identified, enters]
    at added
  refine ⟨_, added, [], ?_, by simp⟩
  simp [enter, contexts, extended.entered, depth]

/-- After some logs, a log is executed in the contexts that they have led to. -/
theorem executing_of_append {depth : Nat} {started before : Alignment} {front rest : List StructLog}
    {log : StructLog} (start : start registry inputs depth = .ok started)
    (trace : inputs.trace.logs = front ++ log :: rest)
    (first : (inputs.trace.logs.head?.map StructLog.depth).getD 1 = depth)
    (ran : front.zipIdx.foldlM (addLog registry inputs) started = .ok before) :
    Executing registry inputs front.length (before.leaveDeeper log.depth) := by
  refine ⟨before, log, ?_, by simp [trace], rfl⟩
  rw [afterLogs, first, start, ok_bind, trace, List.zipIdx_append, List.take_left' (by simp), ran]

theorem leaveDeeper_activeIds {before : Alignment} {log : StructLog}
    (within : Within before (visit.context.depth + 1) (visit :: outer))
    (depth : log.depth = visit.context.depth) :
    (before.leaveDeeper log.depth).activeIds =
      (visit :: outer).map fun visit => visit.context.id := by
  rw [activeIds, depth, leaveDeeper_contexts within, List.map_map]
  rfl

end

end Alignment

/-- A call at an ordinary point of a transaction that fails at an ordinary point of the called
code. -/
theorem FailedCall.of_logs {registry : Registry} {inputs : TraceInputs} {code callee : BytecodeId}
    {address : ContextAddress} {depth : Nat} {front inner rest : List StructLog}
    {site last : StructLog} (runs : inputs.Runs registry code address)
    (trace : inputs.trace.logs = front ++ site :: (inner ++ last :: rest))
    (before : ∀ log ∈ front, Activation.Ordinary depth log)
    (calls : site.depth = depth ∧ site.isHalt = false ∧ site.isCall = true)
    (enters : Execution.innerCode? registry inputs code site = some callee ∧
      Execution.Identified registry inputs code site)
    (inside : ∀ log ∈ inner, Activation.Ordinary (depth + 1) log)
    (ends : last.depth = depth + 1 ∧ last.Fails) :
    FailedCall registry inputs front.length (front.length + 1 + inner.length) 1 := by
  obtain ⟨siteDepth, continues, isCall⟩ := calls
  have first : (inputs.trace.logs.head?.map StructLog.depth).getD 1 = depth := by
    rw [trace]
    cases front with
    | nil => exact siteDepth
    | cons log _ => exact (before log List.mem_cons_self).depth
  obtain ⟨start, known⟩ := Alignment.start_eq runs depth
  have rooted : Alignment.Within (Alignment.empty.enter code address depth) (depth + 1)
      [Execution.root code address depth] := ⟨[], rfl, by simp⟩
  obtain ⟨reached, ranFront, within, entered⟩ :=
    Alignment.foldlM_ordinary inputs known front 0 rooted before
  obtain ⟨opened, added, withinCall⟩ :=
    Alignment.addLog_enters front.length known within siteDepth continues enters.1 enters.2
  have called := Alignment.mem_codes_of_innerCode? enters.2 enters.1
  obtain ⟨ending, ranInner, withinLast, _⟩ :=
    Alignment.foldlM_ordinary inputs called inner (front ++ [site]).length withinCall inside
  have ranSite : (front ++ [site]).zipIdx.foldlM (Alignment.addLog registry inputs)
      (Alignment.empty.enter code address depth) = .ok opened := by
    rw [List.zipIdx_append, List.foldlM_append, ranFront, ok_bind]
    simpa using added
  have ranInside : (front ++ [site] ++ inner).zipIdx.foldlM (Alignment.addLog registry inputs)
      (Alignment.empty.enter code address depth) = .ok ending := by
    rw [List.zipIdx_append, List.foldlM_append, ranSite, ok_bind]
    simpa using ranInner
  obtain ⟨next, others, listed, nextDepth⟩ : ∃ next others,
      inner ++ last :: rest = next :: others ∧ next.depth = depth + 1 := by
    cases inner with
    | nil => exact ⟨last, rest, rfl, ends.1⟩
    | cons next inner => exact ⟨next, _, rfl, (inside next List.mem_cons_self).depth⟩
  have toNext : inputs.trace.logs = front ++ [site] ++ next :: others := by
    rw [trace, listed, List.append_assoc, List.singleton_append]
  have toLast : inputs.trace.logs = front ++ [site] ++ inner ++ last :: rest := by
    rw [trace]
    simp
  have atSite := Alignment.executing_of_append start trace first ranFront
  have atNext := Alignment.executing_of_append start toNext first ranSite
  have atLast := Alignment.executing_of_append start toLast first ranInside
  rw [List.length_append, List.length_singleton] at atNext
  rw [List.length_append, List.length_append, List.length_singleton] at atLast
  refine ⟨⟨site, by simp [trace], isCall⟩, ⟨?_, _, atNext, ?_⟩, last, _, ?_, ends.2, atLast, ?_⟩
  · rintro ⟨here, executes, active⟩
    obtain rfl := executes.unique atSite
    rw [Alignment.leaveDeeper_activeIds within siteDepth] at active
    simp [Execution.root] at active
  · rw [Alignment.leaveDeeper_activeIds withinCall nextDepth, entered]
    exact List.mem_cons_self
  · rw [trace, List.getElem?_append_right (by omega)]
    simp [Nat.add_assoc, Nat.add_comm 1]
  · rw [Alignment.leaveDeeper_activeIds withinLast ends.1, entered]
    rfl

/-! ### What is shown after a call -/

/-- Whether a value is what the last one of some logs reports that reports anything. -/
def LastReported (report? : Nat → Option Word) (first last : Nat) (value : Word) : Prop :=
  ∃ index ≤ last, first ≤ index ∧ report? index = some value ∧
    ∀ later ≤ last, index < later → report? later = none

instance (report? : Nat → Option Word) (first last : Nat) (value : Word) :
    Decidable (LastReported report? first last value) :=
  inferInstanceAs (Decidable (∃ index ≤ last, first ≤ index ∧ report? index = some value ∧
    ∀ later ≤ last, index < later → report? later = none))

section

variable {report? : Nat → Option Word} {first middle last : Nat}

/-- Either one of the later logs reports a value, or what the earlier ones report is the last. -/
theorem lastReported_split (ordered : first ≤ middle + 1) (before : middle ≤ last) (value : Word) :
    LastReported report? first last value ↔ LastReported report? (middle + 1) last value ∨
      (∀ index ≤ last, middle < index → report? index = none) ∧
        LastReported report? first middle value := by
  constructor
  · rintro ⟨index, within, after, reports, final⟩
    by_cases early : index ≤ middle
    · exact .inr ⟨fun later inside above => final later inside (by omega), index, early, after,
        reports, fun later inside above => final later (by omega) above⟩
    · exact .inl ⟨index, within, by omega, reports, final⟩
  · rintro (⟨index, within, after, reports, final⟩ |
      ⟨silent, index, within, after, reports, final⟩)
    · exact ⟨index, within, by omega, reports, final⟩
    · refine ⟨index, by omega, after, reports, fun later inside above => ?_⟩
      by_cases early : later ≤ middle
      · exact final later early above
      · exact silent later inside (by omega)

/-- Logs that report nothing do not matter. -/
theorem lastReported_silent (ordered : first ≤ middle + 1) (before : middle ≤ last)
    (silent : ∀ index ≤ last, middle < index → report? index = none) (value : Word) :
    LastReported report? first last value ↔ LastReported report? first middle value := by
  rw [lastReported_split ordered before]
  constructor
  · rintro (⟨index, within, after, reports, _⟩ | ⟨_, reported⟩)
    · rw [silent index within (by omega)] at reports
      cases reports
    · exact reported
  · exact fun reported => .inr ⟨silent, reported⟩

end

/-- A step is taken at a log that runs on its account, and shows what has been reported last. -/
theorem reduce_shows {registry : Registry} {inputs : TraceInputs} {steps : List Step}
    (reduced : reduce registry inputs = .ok steps) :
    ∃ alignment, Alignment.ofInputs registry inputs = .ok alignment ∧
      ∀ step ∈ steps, alignment.addresses[step.index]? = some step.address ∧
        ∀ slot value, step.snapshot.storage[slot]? = some value ↔
          LastReported (alignment.reportAt? inputs.trace.logs step.address slot) 0 step.index
            value := by
  obtain ⟨alignment, aligned, displays⟩ := reduce_displays reduced
  refine ⟨alignment, aligned, fun step member => ?_⟩
  obtain ⟨address, storage⟩ := displays step member
  refine ⟨address, fun slot value => ?_⟩
  rw [storage, alignment.getElem?_known]
  simp only [LastReported, Nat.zero_le, true_and]

/-- The storage that is shown after a failed call. If no log between the end of the call and a later
step reports a slot of the step's account, the step shows what was last reported inside the call,
and only if nothing was, what had been reported before it. -/
theorem failedCall_shown (registry : Registry) (inputs : TraceInputs) (steps : List Step)
    (reduced : reduce registry inputs = .ok steps) :
    ∃ alignment, Alignment.ofInputs registry inputs = .ok alignment ∧
      ∀ site last id, FailedCall registry inputs site last id →
        (∀ index, ActiveAt registry inputs index id ↔ site < index ∧ index ≤ last) ∧
        ∀ step ∈ steps, last < step.index →
          alignment.addresses[step.index]? = some step.address ∧
          ∀ slot,
            let report? := alignment.reportAt? inputs.trace.logs step.address slot
            (∀ index ≤ step.index, last < index → report? index = none) →
            ∀ value, step.snapshot.storage[slot]? = some value ↔
              LastReported report? (site + 1) last value ∨
                (∀ index ≤ last, site < index → report? index = none) ∧
                  LastReported report? 0 site value := by
  obtain ⟨alignment, aligned, shows⟩ := reduce_shows reduced
  refine ⟨alignment, aligned, fun site last id call => ⟨call.inside aligned, ?_⟩⟩
  intro step member outside
  obtain ⟨address, storage⟩ := shows step member
  refine ⟨address, fun slot => ?_⟩
  intro report? silent value
  have within : site ≤ last := by
    have active := (call.inside aligned (site + 1)).mp call.enters.2
    omega
  rw [storage, lastReported_silent (Nat.zero_le _) (Nat.le_of_lt outside) silent,
    lastReported_split (Nat.zero_le _) within]

open Activation

namespace Sample

/-- The function stores a value and calls itself by delegation. The call stores another value and is
reverted. -/
def reverting : Run where
  before := []
  entry := entry 1
  body := .plain (stores 1 0 7) <|
    .message delegate [] (entry 2) (.plain (stores 2 0 9) .cut) (log "REVERT" 1 2 []) <|
    .exit (log "JUMP" 3 1 [])
  halt := log "STOP" 5 1 []

theorem reverting_wellFormed {known : Registry} {stable : TraceInputs} {id : BytecodeId}
    (places : Places known id) (enters : CallsEnter known stable id) :
    reverting.WellFormed known stable id 1 where
  before := by simp [reverting]
  entry := entry_wellFormed places 1
  leads := stores_leads places 1 0 7 _ _
  body := by
    apply stores_wellFormed places 1 0 7
    exact message_wellFormed places _ ⟨rfl, rfl⟩ rfl places.call (enters.delegated id).1
      (stores_leads places 2 0 9 _ _) (stores_wellFormed places 2 0 9 _ trivial)
      (revert_halting places 2 _) (exit_wellFormed places 1 _)
  halting := ⟨rfl, Or.inl rfl, Or.inl trivial, ifMapped_of_unmapped places.outside⟩

theorem reverting_addresses {known : Registry} {stable : TraceInputs} {id : BytecodeId}
    (enters : CallsEnter known stable id) :
    (reverting.execution.located known stable id (.deployed 0x10) 1).map
      (fun located => located.visit.context.address) = List.replicate 8 (.deployed 0x10) := by
  simp only [reverting, entry, Run.execution, Entry.execution, Body.execution, chain,
    List.foldr_nil, Execution.located, Execution.executed, Execution.root, (enters.delegated _).1]
  rfl

theorem reverting_exit {known : Registry} {stable : TraceInputs} {id : BytecodeId}
    (enters : CallsEnter known stable id) :
    (events 0 (reverting.expected known stable id (.deployed 0x10))).map
        (fun event => (event.1, event.2.1)) =
      [(0, .functionIn), (2, .jump), (3, .functionIn), (6, .functionOut)] := by
  simp only [Run.expected, Body.expected, reverting, (enters.delegated _).1, Option.getD_some]
  rfl

theorem reverting_fails {known : Registry} {stable : TraceInputs} {id : BytecodeId}
    (runs : stable.Runs known id (.deployed 0x10)) (enters : CallsEnter known stable id)
    (trace : stable.trace.logs = reverting.execution.logs) : FailedCall known stable 2 5 1 := by
  have ordinary (depth : Nat) (value : Word) :
      ∀ log ∈ [(entry depth).last, stores depth 0 value], Ordinary depth log :=
    List.forall_mem_cons.mpr
      ⟨⟨rfl, rfl, rfl, rfl⟩, List.forall_mem_singleton.mpr ⟨rfl, rfl, rfl, rfl⟩⟩
  have split : stable.trace.logs = [(entry 1).last, stores 1 0 7] ++ delegate ::
      ([(entry 2).last, stores 2 0 9] ++ log "REVERT" 1 2 [] ::
        [log "JUMP" 3 1 [], log "STOP" 5 1 []]) := trace
  exact .of_logs runs split (ordinary 1 7) ⟨rfl, rfl, rfl⟩ (enters.delegated id) (ordinary 2 9)
    ⟨rfl, .inl rfl⟩

def revertingInputs : TraceInputs :=
  inputs reverting.execution.logs

/-- What a log reports of a slot. -/
def reverted? (slot : Word) (index : Nat) : Option Word :=
  (reverting.execution.logs[index]?).bind fun log => log.storage[slot]?

/-- The trace is reduced, all of it runs on one account, and the function has an exit. -/
theorem reverting_reduces :
    ∃ steps alignment, reduce registry revertingInputs = .ok steps ∧
      Alignment.ofInputs registry revertingInputs = .ok alignment ∧
      (∀ slot, alignment.reportAt? revertingInputs.trace.logs (.deployed 0x10) slot =
        reverted? slot) ∧
      ∃ step ∈ steps, step.index = 6 ∧ step.address = .deployed 0x10 := by
  have enters := callsEnter reverting.execution.logs
  have runs := runs reverting.execution.logs
  have formed := reverting_wellFormed places enters
  obtain ⟨steps, reduced, shown⟩ := run_reduces runs formed rfl
  obtain ⟨alignment, aligned, shows⟩ := reduce_shows reduced
  obtain ⟨_, same, addresses, _⟩ :=
    Execution.ofInputs_located runs (run_wellFormed formed) (run_halts reverting) rfl
  cases aligned.symm.trans same
  rw [reverting_addresses enters] at addresses
  obtain ⟨step, listed, index⟩ : ∃ step ∈ steps, step.index = 6 := by
    apply @Shows.exists_step 0 6 _ steps .functionOut shown
    rw [reverting_exit enters]
    decide
  have address := (shows step listed).1
  rw [index, ← Array.getElem?_toList, addresses] at address
  refine ⟨steps, alignment, reduced, aligned, fun slot => funext fun index => ?_,
    step, listed, index, (Option.some.inj address).symm⟩
  rw [Alignment.reportAt?, ← Array.getElem?_toList, addresses, List.getElem?_replicate, reverted?]
  by_cases inside : index < 8
  · rw [if_pos inside, if_pos rfl]
    rfl
  · have ended : reverting.execution.logs[index]? = none :=
      List.getElem?_eq_none (Nat.le_of_not_lt inside)
    rw [if_neg inside, ended]
    rfl

end Sample

/-- The delegated call stores a value and is reverted. The exit of the calling function, which has
stored another one before, shows the value of the call. -/
theorem failedCall_kept :
    ∃ steps alignment,
      reduce Sample.registry Sample.revertingInputs = .ok steps ∧
      Alignment.ofInputs Sample.registry Sample.revertingInputs = .ok alignment ∧
      FailedCall Sample.registry Sample.revertingInputs 2 5 1 ∧
      ∃ step ∈ steps, 5 < step.index ∧ step.address = .deployed 0x10 ∧
        let report? := alignment.reportAt? Sample.revertingInputs.trace.logs (.deployed 0x10) 0
        LastReported report? 0 2 7 ∧
          (∀ index ≤ step.index, 5 < index → report? index = none) ∧
          step.snapshot.storage[(0 : Word)]? = some 9 := by
  obtain ⟨steps, alignment, reduced, aligned, reports, step, listed, index, address⟩ :=
    Sample.reverting_reduces
  have call := Sample.reverting_fails (Sample.runs _) (Sample.callsEnter _) rfl
  obtain ⟨_, same, shows⟩ := reduce_shows reduced
  cases aligned.symm.trans same
  have storage := (shows step listed).2 0 9
  refine ⟨steps, alignment, reduced, aligned, call, step, listed, by omega, address, ?_⟩
  rw [address, index] at storage
  rw [index, reports]
  rw [reports] at storage
  exact ⟨by decide +kernel, by decide +kernel, storage.mpr (by decide +kernel)⟩

/-- The same exit, as told by what the logs inside and before the call report. -/
theorem failedCall_shown_reverted :
    ∃ steps, reduce Sample.registry Sample.revertingInputs = .ok steps ∧
      (∀ index, ActiveAt Sample.registry Sample.revertingInputs index 1 ↔
        2 < index ∧ index ≤ 5) ∧
      ∃ step ∈ steps, step.index = 6 ∧ step.snapshot.storage[(0 : Word)]? = some 9 := by
  obtain ⟨steps, alignment, reduced, aligned, reports, step, listed, index, address⟩ :=
    Sample.reverting_reduces
  have call := Sample.reverting_fails (Sample.runs _) (Sample.callsEnter _) rfl
  obtain ⟨_, same, shows⟩ := failedCall_shown _ _ steps reduced
  cases aligned.symm.trans same
  obtain ⟨inside, shown⟩ := shows 2 5 1 call
  obtain ⟨_, storage⟩ := shown step listed (by omega)
  refine ⟨steps, reduced, inside, step, listed, index, ?_⟩
  have told := storage 0
  simp only [address, index, reports] at told
  exact (told (by decide +kernel) 9).mpr (.inl (by decide +kernel))

end SolTrace
