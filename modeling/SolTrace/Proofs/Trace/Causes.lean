import Mathlib.Data.Set.Function
import SolTrace.Proofs.Trace.Entries
/-!
Causes of function entries. The start of a trace, a call site and a creation each allow one function
to be entered, whichever code runs next. So the functions that records enter have different causes;
only the entry that is added to the first step of a trace needs none.
-/
set_option autoImplicit false

namespace SolTrace

/-! ### Causes before events -/

/-- Whether events at given positions have different causes, each at a position before the event.
One event may have no cause but the start. -/
def Caused (events causes : Nat → Prop) : Prop :=
  ∃ cause : Nat → Option Nat, Set.InjOn cause {position | events position} ∧
    ∀ position, events position → ∀ site ∈ cause position, site < position ∧ causes site

/-- The last position with a property below a bound. -/
def lastBelow (holds : Nat → Prop) [DecidablePred holds] : Nat → Option Nat
  | 0 => none
  | bound + 1 => if holds bound then some bound else lastBelow holds bound

section

variable {holds : Nat → Prop} [DecidablePred holds]

theorem lastBelow_spec {bound site : Nat} (last : lastBelow holds bound = some site) :
    site < bound ∧ holds site := by
  induction bound with
  | zero => cases last
  | succ bound ih =>
      unfold lastBelow at last
      split at last
      · rename_i here
        cases last
        exact ⟨Nat.lt_succ_self _, here⟩
      · obtain ⟨below, inside⟩ := ih last
        exact ⟨Nat.lt_succ_of_lt below, inside⟩

theorem le_lastBelow {bound site : Nat} (below : site < bound) (inside : holds site) :
    ∃ last, lastBelow holds bound = some last ∧ site ≤ last := by
  induction bound with
  | zero => omega
  | succ bound ih =>
      unfold lastBelow
      split
      · exact ⟨bound, rfl, by omega⟩
      · rename_i other
        have different : site ≠ bound := fun same => other (same ▸ inside)
        exact ih (by omega)

end

/-- Events with a cause between any two of them have different causes. -/
theorem caused_of_between {events causes : Nat → Prop}
    (between : ∀ first second, first < second → events first → events second →
      ∃ site, first ≤ site ∧ site < second ∧ causes site) : Caused events causes := by
  classical
  have later (first second : Nat) (order : first < second) (event : events first)
      (event' : events second) : lastBelow causes first ≠ lastBelow causes second := by
    intro same
    obtain ⟨site, above, below, inside⟩ := between first second order event event'
    obtain ⟨last, found, reaches⟩ := le_lastBelow below inside
    have before := (lastBelow_spec (same.trans found)).1
    omega
  refine ⟨lastBelow causes, ?_, fun position _ site last => lastBelow_spec last⟩
  intro first event second event' same
  rcases Nat.lt_trichotomy first second with order | equal | order
  · exact absurd same (later first second order event event')
  · exact equal
  · exact absurd same.symm (later second first order event' event)

/-- Two events with no cause before them do not have different causes. -/
theorem not_caused {events causes : Nat → Prop} {first second : Nat} (order : first < second)
    (event : events first) (event' : events second)
    (uncaused : ∀ site, site < second → ¬ causes site) : ¬ Caused events causes := by
  rintro ⟨cause, different, valid⟩
  have start (position : Nat) (happens : events position) (early : position ≤ second) :
      cause position = none := by
    apply Option.eq_none_iff_forall_not_mem.mpr
    intro site known
    obtain ⟨below, caused⟩ := valid position happens site known
    exact uncaused site (by omega) caused
  have same := different event event'
    ((start first event (by omega)).trans (start second event' (Nat.le_refl _)).symm)
  omega

/-! ### Entries -/

namespace Classification

/-- A call of a function of the same code. -/
def InternalCall (entry : Record × List StepKind) : Prop :=
  .jump ∈ entry.2 ∧ entry.1.mapped.location.jump = .into ∧ entry.1.node.kind = .functionCall

def MessageCall (entry : Record × List StepKind) : Prop :=
  .jump ∈ entry.2 ∧ entry.1.log.isCall = true

/-- Whether the record at a position is a cause for an entry: an internal call, one of given message
calls, or a creation. -/
def CauseAt (counts : Record → Prop) (classified : List (Record × List StepKind))
    (position : Nat) : Prop :=
  ∃ entry, classified[position]? = some entry ∧
    (InternalCall entry ∨ (MessageCall entry ∧ counts entry.1) ∨ entry.1.log.isCreate = true)

/-- Whether the record at a position becomes an entry, and possibly another step. -/
def EntryAt (classified : List (Record × List StepKind)) (position : Nat) : Prop :=
  ∃ entry, classified[position]? = some entry ∧ .functionIn ∈ entry.2

/-- Whether all entries have different causes, where a message call is one if the called account has
code. -/
def EntriesCaused (inputs : TraceInputs) (records : List Record) : Prop :=
  Caused (EntryAt (ofRecords records))
    (CauseAt (fun record => (Alignment.called? inputs record.log).isSome = true)
      (ofRecords records))

/-- Whether the record at a position becomes an entry alone. -/
def OwnEntryAt (classified : List (Record × List StepKind)) (position : Nat) : Prop :=
  ∃ record, classified[position]? = some (record, [.functionIn])

section

variable {classified : List (Record × List StepKind)} {entry : Record × List StepKind}

theorem causeAt_zero {counts : Record → Prop} :
    CauseAt counts (entry :: classified) 0 ↔
      InternalCall entry ∨ (MessageCall entry ∧ counts entry.1) ∨ entry.1.log.isCreate = true := by
  simp [CauseAt]

theorem causeAt_succ {counts : Record → Prop} {position : Nat} :
    CauseAt counts (entry :: classified) (position + 1) ↔ CauseAt counts classified position :=
  Iff.rfl

theorem ownEntryAt_succ {position : Nat} :
    OwnEntryAt (entry :: classified) (position + 1) ↔ OwnEntryAt classified position :=
  Iff.rfl

end

section

variable {record : Record} {previous next : Option Record} {armed : Bool}

theorem kindOf_functionIn (entry : kindOf previous next armed record = some .functionIn) :
    armed = true := by
  unfold kindOf at entry
  grind

theorem kindOf_jump (site : kindOf previous next armed record = some .jump) :
    record.isCallSite = true := by
  unfold kindOf at site
  grind

theorem armedAfter_of_open {kind : Option StepKind} (opens : armedAfter armed record kind = true)
    (closed : armed = false ∨ kind = some .functionIn) :
    record.log.isCreate = true ∨ kind = some .jump := by
  rcases closed with rfl | rfl <;> simpa [armedAfter] using opens

/-- What opens a cause is one. -/
theorem causeAt_of_open {rest : List (Record × List StepKind)}
    (opens : record.log.isCreate = true ∨ kindOf previous next armed record = some .jump) :
    CauseAt (fun _ => True) ((record, (kindOf previous next armed record).toList) :: rest) 0 := by
  rw [causeAt_zero]
  rcases opens with creates | site
  · exact Or.inr (Or.inr creates)
  · have calls := kindOf_jump site
    rw [site]
    simp only [Record.isCallSite, Bool.or_eq_true, Bool.and_eq_true, beq_iff_eq] at calls
    rcases calls with ⟨into, call⟩ | message
    · exact Or.inl ⟨by simp, into, call⟩
    · exact Or.inr (Or.inl ⟨⟨by simp, message⟩, trivial⟩)

end

/-- While no cause is open, an entry has one before it. -/
theorem cause_of_unarmed (records : List Record) :
    ∀ {previous : Option Record} {position : Nat},
      OwnEntryAt (kindsFrom previous false records) position →
      ∃ site, site < position ∧
        CauseAt (fun _ => True) (kindsFrom previous false records) site := by
  induction records with
  | nil =>
      rintro previous position ⟨record, found⟩
      cases found
  | cons record records ih =>
      intro previous position entry
      cases position with
      | zero =>
          obtain ⟨other, found⟩ := entry
          have kinds := congrArg Prod.snd (Option.some.inj found)
          have enters : kindOf previous records.head? false record = some .functionIn :=
            Option.toList_eq_singleton_iff.mp kinds
          exact absurd (kindOf_functionIn enters) (by decide)
      | succ position =>
          cases opens : armedAfter false record (kindOf previous records.head? false record) with
          | true =>
              exact ⟨0, Nat.succ_pos _,
                causeAt_of_open (armedAfter_of_open opens (Or.inl rfl))⟩
          | false =>
              have later := ownEntryAt_succ.mp entry
              rw [opens] at later
              obtain ⟨site, below, cause⟩ := ih later
              refine ⟨site + 1, Nat.succ_lt_succ below, ?_⟩
              rw [kindsFrom, causeAt_succ, opens]
              exact cause

/-- Between two entries there is a cause for the second. -/
theorem cause_between (records : List Record) :
    ∀ {previous : Option Record} {armed : Bool} {first second : Nat}, first < second →
      OwnEntryAt (kindsFrom previous armed records) first →
      OwnEntryAt (kindsFrom previous armed records) second →
      ∃ site, first ≤ site ∧ site < second ∧
        CauseAt (fun _ => True) (kindsFrom previous armed records) site := by
  induction records with
  | nil =>
      rintro previous armed first second _ ⟨record, found⟩ _
      cases found
  | cons record records ih =>
      intro previous armed first second order entry entry'
      obtain ⟨last, rfl⟩ : ∃ last, second = last + 1 := ⟨second - 1, by omega⟩
      have later := ownEntryAt_succ.mp entry'
      cases first with
      | zero =>
          obtain ⟨other, found⟩ := entry
          have kinds := congrArg Prod.snd (Option.some.inj found)
          have enters : kindOf previous records.head? armed record = some .functionIn :=
            Option.toList_eq_singleton_iff.mp kinds
          cases opens : armedAfter armed record (kindOf previous records.head? armed record) with
          | true =>
              exact ⟨0, Nat.le_refl _, Nat.succ_pos _,
                causeAt_of_open (armedAfter_of_open opens (Or.inr enters))⟩
          | false =>
              rw [opens] at later
              obtain ⟨site, below, cause⟩ := cause_of_unarmed records later
              refine ⟨site + 1, Nat.zero_le _, Nat.succ_lt_succ below, ?_⟩
              rw [kindsFrom, causeAt_succ, opens]
              exact cause
      | succ first =>
          obtain ⟨site, above, below, cause⟩ :=
            ih (Nat.lt_of_succ_lt_succ order) (ownEntryAt_succ.mp entry) later
          exact ⟨site + 1, Nat.succ_le_succ above, Nat.succ_lt_succ below,
            causeAt_succ.mpr cause⟩

/-- The entry of the first function is added to a record that becomes another step. -/
theorem enterFirst_getElem? (entries : List (Record × List StepKind)) :
    ∀ position : Nat, (enterFirst entries)[position]? = entries[position]? ∨
      ∃ record kind kinds, entries[position]? = some (record, kind :: kinds) ∧
        (enterFirst entries)[position]? =
          some (record, StepKind.functionIn :: kind :: kinds) := by
  induction entries with
  | nil => exact fun _ => Or.inl rfl
  | cons entry entries ih =>
      obtain ⟨record, kinds⟩ := entry
      intro position
      cases kinds with
      | nil =>
          cases position with
          | zero => exact Or.inl rfl
          | succ position => exact ih position
      | cons kind kinds =>
          unfold enterFirst
          split
          · cases position with
            | zero => exact Or.inr ⟨record, kind, kinds, rfl, rfl⟩
            | succ position => exact Or.inl rfl
          · exact Or.inl rfl

theorem ownEntryAt_enterFirst {entries : List (Record × List StepKind)} {position : Nat}
    (entry : OwnEntryAt (enterFirst entries) position) : OwnEntryAt entries position := by
  obtain ⟨record, found⟩ := entry
  rcases enterFirst_getElem? entries position with same | ⟨_, _, _, _, added⟩
  · exact ⟨record, same ▸ found⟩
  · rw [found] at added
    cases added

theorem causeAt_enterFirst {counts : Record → Prop} {entries : List (Record × List StepKind)}
    {position : Nat} (cause : CauseAt counts entries position) :
    CauseAt counts (enterFirst entries) position := by
  obtain ⟨entry, found, holds⟩ := cause
  rcases enterFirst_getElem? entries position with same | ⟨record, kind, kinds, before, added⟩
  · exact ⟨entry, same.trans found, holds⟩
  · rw [found] at before
    cases before
    refine ⟨_, added, ?_⟩
    simpa [InternalCall, MessageCall] using holds

/-- An entry that a record becomes besides another step is the first step of all. -/
theorem ownEntryAt_or_first {entries : List (Record × List StepKind)}
    (single : ∀ entry ∈ entries, entry.2.length ≤ 1) :
    ∀ {position : Nat}, EntryAt (enterFirst entries) position →
      OwnEntryAt (enterFirst entries) position ∨
        ∀ entry ∈ (enterFirst entries).take position, entry.2 = [] := by
  induction entries with
  | nil =>
      rintro position ⟨entry, found, _⟩
      cases found
  | cons first entries ih =>
      have rest : ∀ entry ∈ entries, entry.2.length ≤ 1 :=
        fun entry member => single entry (List.mem_cons_of_mem _ member)
      obtain ⟨record, kinds⟩ := first
      intro position entered
      cases position with
      | zero => exact Or.inr (by simp)
      | succ position =>
          cases kinds with
          | nil =>
              have later : EntryAt (enterFirst entries) position := entered
              rcases ih rest later with own | first
              · exact Or.inl own
              · refine Or.inr ?_
                simpa [enterFirst] using first
          | cons kind kinds =>
              have same : (enterFirst ((record, kind :: kinds) :: entries))[position + 1]? =
                  entries[position]? := by
                unfold enterFirst
                split <;> rfl
              obtain ⟨entry, found, enters⟩ := entered
              rw [same] at found
              have short := rest entry (List.mem_of_getElem? found)
              have only : entry.2 = [.functionIn] := by
                obtain ⟨kind, equal⟩ := List.length_eq_one_iff.mp
                  (Nat.le_antisymm short (List.length_pos_of_mem enters))
                rw [equal] at enters ⊢
                rw [List.mem_singleton.mp enters]
              exact Or.inl ⟨entry.1, by rw [same, found, ← only]⟩

end Classification

open Classification

/-- The functions that records enter have different causes before them: the start of the trace, a
call site, whether or not a context is entered there, or a creation. After one entry there is none
before the next cause. -/
theorem entries_caused (records : List Record) :
    Caused (OwnEntryAt (ofRecords records)) (CauseAt (fun _ => True) (ofRecords records)) ∧
      (∀ first second, first < second → OwnEntryAt (ofRecords records) first →
        OwnEntryAt (ofRecords records) second →
        ∃ site, first ≤ site ∧ site < second ∧
          CauseAt (fun _ => True) (ofRecords records) site) ∧
      ∀ position, EntryAt (ofRecords records) position →
        OwnEntryAt (ofRecords records) position ∨
          ∀ entry ∈ (ofRecords records).take position, entry.2 = [] := by
  have between (first second : Nat) (order : first < second)
      (entry : OwnEntryAt (ofRecords records) first)
      (entry' : OwnEntryAt (ofRecords records) second) :
      ∃ site, first ≤ site ∧ site < second ∧
        CauseAt (fun _ => True) (ofRecords records) site := by
    obtain ⟨site, above, below, cause⟩ := cause_between records order
      (ownEntryAt_enterFirst entry) (ownEntryAt_enterFirst entry')
    exact ⟨site, above, below, causeAt_enterFirst cause⟩
  exact ⟨caused_of_between between, between, fun _ entry =>
    ownEntryAt_or_first (kindsFrom_length records none true) entry⟩

namespace Sample

/-- A function calls an account without code, and an instruction of its definition follows. -/
def callsNobody : Execution :=
  .next (log "JUMPDEST" 0 1 []) <|
  .next (log "SSTORE" 1 1 []) <|
  .enters callNobody .stops <|
  .next (log "JUMPDEST" 0 1 []) <|
  .next (log "SSTORE" 1 1 []) <|
  .halts (log "STOP" 5 1 [])

theorem housed_runs (logs : List StructLog) :
    (inputs logs).Runs housedRegistry runtime.id (.deployed 0x10) :=
  ⟨rfl, runtime.text, codeOf? logs 0x10 (Or.inl rfl), housed_identify⟩

def callsNobodyRecords : List Record :=
  [recordOf contract 0 (log "JUMPDEST" 0 1 []) (mapped 0 1 .regular)
      (node 1 "FunctionDefinition" [2, 3]),
    recordOf contract 1 (log "SSTORE" 1 1 []) (mapped 1 2 .regular) (node 2 "Assignment" []),
    recordOf contract 2 callNobody (mapped 4 3 .regular) (node 3 "FunctionCall" []),
    recordOf contract 3 (log "JUMPDEST" 0 1 []) (mapped 0 1 .regular)
      (node 1 "FunctionDefinition" [2, 3]),
    recordOf contract 4 (log "SSTORE" 1 1 []) (mapped 1 2 .regular) (node 2 "Assignment" [])]

theorem callsNobody_wellFormed {known : Registry} {stable : TraceInputs} {id : BytecodeId}
    (enters : CallsEnter known stable id) : callsNobody.WellFormed known stable id 1 := by
  obtain ⟨_, _, missed⟩ := enters
  refine ⟨rfl, rfl, rfl, rfl, rfl, rfl, rfl, rfl, rfl, rfl, (missed _).2, ?_, rfl, rfl, rfl, rfl,
    rfl, rfl, rfl, rfl, rfl, rfl⟩
  rw [(missed _).1]

theorem callsNobody_records {known : Registry} {stable : TraceInputs} {id : BytecodeId}
    (places : Places known id) (enters : CallsEnter known stable id) :
    (callsNobody.located known stable id (.deployed 0x10) 1).filterMap
      (Located.record? known) = callsNobodyRecords := by
  simp only [callsNobody, Execution.located, Execution.executed, (enters.missed _).1]
  simp [Located.record?, Execution.root, log, callNobody, places.entry, places.statement,
    places.call, places.outside]
  rfl

theorem callsNobody_classified :
    ofRecords callsNobodyRecords =
      callsNobodyRecords.zip [[.functionIn], [.line], [.jump], [.functionIn], [.line]] := by
  rfl

/-- The called account has no code, so no record is a cause for the second entry. -/
theorem callsNobody_causes {logs : List StructLog} {site : Nat} (before : site < 3) :
    ¬ CauseAt (fun record => (Alignment.called? (inputs logs) record.log).isSome = true)
      (ofRecords callsNobodyRecords) site := by
  rw [callsNobody_classified]
  rintro ⟨entry, found, cause⟩
  have missed : Alignment.called? (inputs logs) callNobody = none := called?_nobody logs rfl
  obtain rfl | rfl | rfl : site = 0 ∨ site = 1 ∨ site = 2 := by omega
  · cases found
    simp [InternalCall, MessageCall, recordOf, log, StructLog.isCreate] at cause
  · cases found
    simp [InternalCall, MessageCall, recordOf, log, StructLog.isCreate] at cause
  · cases found
    have creates : callNobody.isCreate = false := rfl
    simp [InternalCall, MessageCall, recordOf, mapped, missed, creates] at cause

/-- The first record belongs to the body of a function, whose definition comes after it. -/
def entersLate : Execution :=
  .next (log "SSTORE" 1 1 []) <|
  .next (log "JUMPDEST" 0 1 []) <|
  .halts (log "STOP" 1 1 [])

def entersLateRecords : List Record :=
  [recordOf housed 0 (log "SSTORE" 1 1 []) (mapped 1 2 .regular) (node 2 "Assignment" []),
    recordOf housed 1 (log "JUMPDEST" 0 1 []) (mapped 0 1 .regular)
      (node 1 "FunctionDefinition" [2, 3]),
    recordOf housed 2 (log "STOP" 1 1 []) (mapped 1 2 .regular) (node 2 "Assignment" [])]

theorem entersLate_wellFormed {known : Registry} {stable : TraceInputs} {id : BytecodeId} :
    entersLate.WellFormed known stable id 1 :=
  ⟨rfl, rfl, rfl, rfl, rfl, rfl, rfl, rfl, rfl, rfl⟩

theorem entersLate_records {known : Registry} {stable : TraceInputs} {id : BytecodeId}
    (places : Housed known id) :
    (entersLate.located known stable id (.deployed 0x10) 1).filterMap (Located.record? known) =
      entersLateRecords := by
  simp [entersLate, Execution.located, Execution.executed, Located.record?, Execution.root, log,
    places.entry, places.statement]
  rfl

theorem entersLate_classified :
    ofRecords entersLateRecords =
      entersLateRecords.zip [[.functionIn, .line], [.functionIn], [.line]] := by
  rfl

/-- Neither record before the second entry is a cause. -/
theorem entersLate_causes {counts : Record → Prop} {site : Nat} (before : site < 1) :
    ¬ CauseAt counts (ofRecords entersLateRecords) site := by
  rw [entersLate_classified]
  rintro ⟨entry, found, cause⟩
  obtain rfl : site = 0 := by omega
  cases found
  simp [InternalCall, MessageCall, recordOf, log, StructLog.isCreate] at cause

end Sample

/-- Functions are entered without causes of their own: twice by a trace whose only call is that of
an account without code, and twice at the start of a trace in a function's body. -/
theorem entries_uncaused :
    (∃ alignment, Alignment.ofInputs Sample.registry (Sample.inputs Sample.callsNobody.logs) =
        .ok alignment ∧
      ¬ EntriesCaused (Sample.inputs Sample.callsNobody.logs) alignment.records.toList) ∧
    ∃ alignment, Alignment.ofInputs Sample.housedRegistry
        (Sample.inputs Sample.entersLate.logs) = .ok alignment ∧
      ¬ EntriesCaused (Sample.inputs Sample.entersLate.logs) alignment.records.toList := by
  constructor
  · have enters := Sample.callsEnter Sample.callsNobody.logs
    obtain ⟨alignment, aligned, _, records⟩ :=
      Execution.ofInputs_located (Sample.runs _) (Sample.callsNobody_wellFormed enters) trivial rfl
    rw [Sample.callsNobody_records Sample.places enters] at records
    refine ⟨alignment, aligned, ?_⟩
    rw [records]
    have first : EntryAt (ofRecords Sample.callsNobodyRecords) 0 :=
      Sample.callsNobody_classified ▸ ⟨_, rfl, List.mem_singleton_self _⟩
    have second : EntryAt (ofRecords Sample.callsNobodyRecords) 3 :=
      Sample.callsNobody_classified ▸ ⟨_, rfl, List.mem_singleton_self _⟩
    exact not_caused (by decide) first second fun _ before => Sample.callsNobody_causes before
  · obtain ⟨alignment, aligned, _, records⟩ :=
      Execution.ofInputs_located (Sample.housed_runs _) Sample.entersLate_wellFormed trivial rfl
    rw [Sample.entersLate_records Sample.housed_places] at records
    refine ⟨alignment, aligned, ?_⟩
    rw [records]
    have first : EntryAt (ofRecords Sample.entersLateRecords) 0 :=
      Sample.entersLate_classified ▸ ⟨_, rfl, List.mem_cons_self⟩
    have second : EntryAt (ofRecords Sample.entersLateRecords) 1 :=
      Sample.entersLate_classified ▸ ⟨_, rfl, List.mem_singleton_self _⟩
    exact not_caused Nat.zero_lt_one first second fun _ before => Sample.entersLate_causes before

end SolTrace
