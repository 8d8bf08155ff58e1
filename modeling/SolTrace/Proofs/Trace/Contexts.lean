import Mathlib.Data.List.Basic
import SolTrace.Trace.Alignment
/-!
The active contexts from one record of a trace to the next. Contexts are numbered as they are
entered and left from the innermost on, so the contexts that two records share are the outermost
ones of both, and no context that has been left is ever active again.
-/
set_option autoImplicit false

namespace SolTrace

/-! ### Numbers of contexts -/

/-- Whether the contexts with numbers below a limit that are active later were active before, each
with all contexts around it. -/
def Resumes (limit : Nat) (before later : List Nat) : Prop :=
  ∀ id ∈ later, id < limit → id ∈ before ∧ ∀ other ∈ before, other ≤ id → other ∈ later

namespace Resumes

theorem refl (limit : Nat) (ids : List Nat) : Resumes limit ids ids :=
  fun _ member _ => ⟨member, fun _ inside _ => inside⟩

theorem trans {limit next : Nat} {first second third : List Nat}
    (left : Resumes limit first second) (right : Resumes next second third)
    (grows : limit ≤ next) : Resumes limit first third := by
  intro id member below
  obtain ⟨between, around⟩ := right id member (Nat.lt_of_lt_of_le below grows)
  obtain ⟨before, kept⟩ := left id between below
  exact ⟨before, fun other inside outer => around other (kept other inside outer) outer⟩

/-- Leaving the innermost contexts. The numbers are given innermost first. -/
theorem of_suffix {limit : Nat} {ids rest : List Nat} (descending : ids.Pairwise (· > ·))
    (suffix : rest <:+ ids) : Resumes limit ids rest := by
  obtain ⟨left, rfl⟩ := suffix
  intro id member _
  refine ⟨List.mem_append_right _ member, ?_⟩
  intro other inside outer
  rcases List.mem_append.mp inside with gone | kept
  · have inner : id < other := (List.pairwise_append.mp descending).2.2 other gone id member
    omega
  · exact kept

theorem enter (limit : Nat) (ids : List Nat) : Resumes limit ids (limit :: ids) := by
  intro id member below
  have kept : id ∈ ids := by
    rcases List.mem_cons.mp member with rfl | kept
    · omega
    · exact kept
  exact ⟨kept, fun other inside _ => List.mem_cons_of_mem _ inside⟩

theorem of_mem {limit : Nat} {before later before' later' : List Nat}
    (resumes : Resumes limit before later) (same : ∀ id, id ∈ before ↔ id ∈ before')
    (same' : ∀ id, id ∈ later ↔ id ∈ later') : Resumes limit before' later' := by
  intro id member below
  obtain ⟨inside, around⟩ := resumes id ((same' id).mpr member) below
  exact ⟨(same id).mp inside, fun other known outer =>
    (same' other).mp (around other ((same other).mpr known) outer)⟩

end Resumes

/-! ### Alignments -/

namespace Alignment

/-- The numbers of the active contexts, innermost first. -/
def activeIds (alignment : Alignment) : List Nat :=
  alignment.contexts.map Context.id

/-- Whether the active contexts have different numbers, in the order in which they were entered. -/
structure Numbered (alignment : Alignment) : Prop where
  descending : alignment.activeIds.Pairwise (· > ·)
  below : ∀ id ∈ alignment.activeIds, id < alignment.entered

/-- Whether one alignment comes from another by entering and leaving contexts. -/
structure LeadsTo (before after : Alignment) : Prop where
  numbered : after.Numbered
  resumes : Resumes before.entered before.activeIds after.activeIds
  grows : before.entered ≤ after.entered

theorem LeadsTo.refl {alignment : Alignment} (numbered : alignment.Numbered) :
    LeadsTo alignment alignment :=
  ⟨numbered, Resumes.refl _ _, Nat.le_refl _⟩

theorem LeadsTo.trans {first second third : Alignment} (left : LeadsTo first second)
    (right : LeadsTo second third) : LeadsTo first third :=
  ⟨right.numbered, left.resumes.trans right.resumes left.grows,
    Nat.le_trans left.grows right.grows⟩

/-- Leaving the innermost contexts. -/
theorem LeadsTo.of_suffix {before after : Alignment} (numbered : before.Numbered)
    (suffix : after.contexts <:+ before.contexts) (entered : after.entered = before.entered) :
    LeadsTo before after := by
  have ids : after.activeIds <:+ before.activeIds := suffix.map Context.id
  refine ⟨⟨numbered.descending.sublist ids.sublist, ?_⟩,
    Resumes.of_suffix numbered.descending ids, Nat.le_of_eq entered.symm⟩
  intro id member
  rw [entered]
  exact numbered.below id (ids.subset member)

theorem enter_leadsTo {alignment : Alignment} (numbered : alignment.Numbered) (code : BytecodeId)
    (address : ContextAddress) (depth : Nat) :
    LeadsTo alignment (alignment.enter code address depth) := by
  have ids : (alignment.enter code address depth).activeIds =
      alignment.entered :: alignment.activeIds := rfl
  have entered : (alignment.enter code address depth).entered = alignment.entered + 1 := rfl
  refine ⟨⟨?_, ?_⟩, ?_, Nat.le_succ _⟩
  · rw [ids]
    exact List.pairwise_cons.mpr ⟨numbered.below, numbered.descending⟩
  · intro id member
    rw [ids] at member
    rw [entered]
    rcases List.mem_cons.mp member with rfl | member
    · omega
    · have := numbered.below id member
      omega
  · rw [ids]
    exact Resumes.enter _ _

/-- An instruction leaves the innermost context, enters one, or does neither. -/
theorem follow_cases {registry : Registry} {inputs : TraceInputs} {alignment after : Alignment}
    {current : Context} {index : Nat} {log : StructLog} {record : Option Record}
    (followed : alignment.follow registry inputs current index log record = .ok after) :
    after = alignment ∨ after = alignment.leave ∨
      ∃ code address depth, after = alignment.enter code address depth := by
  unfold follow at followed
  split at followed
  · exact .inr (.inl (Except.ok.inj followed).symm)
  · split at followed
    · unfold enterCall at followed
      split at followed
      · exact .inl (Except.ok.inj followed).symm
      · obtain ⟨code, _, entered⟩ := bind_eq_ok.mp followed
        exact .inr (.inr ⟨_, _, _, (Except.ok.inj entered).symm⟩)
    · split at followed
      · obtain ⟨code, _, entered⟩ := bind_eq_ok.mp followed
        exact .inr (.inr ⟨_, _, _, (Except.ok.inj entered).symm⟩)
      · exact .inl (Except.ok.inj followed).symm

/-- What an instruction does to the contexts. -/
theorem follow_leadsTo {registry : Registry} {inputs : TraceInputs} {alignment after : Alignment}
    {current : Context} {index : Nat} {log : StructLog} {record : Option Record}
    (numbered : alignment.Numbered)
    (followed : alignment.follow registry inputs current index log record = .ok after) :
    LeadsTo alignment after ∧ after.records = alignment.records := by
  rcases follow_cases followed with rfl | rfl | ⟨code, address, depth, rfl⟩
  · exact ⟨.refl numbered, rfl⟩
  · exact ⟨.of_suffix numbered (List.tail_suffix _) rfl, rfl⟩
  · exact ⟨enter_leadsTo numbered code address depth, rfl⟩

end Alignment

/-! ### Records -/

/-- Whether a record is one that an alignment makes: its node is one of the executing contract, and
its context is the innermost of the active ones, whose numbers ascend. -/
structure Record.Aligned (record : Record) : Prop where
  stored : record.contract.ast.get? record.node.id = some record.node
  ascending : record.active.Pairwise (· < ·)
  executing : record.context ∈ record.active
  innermost : ∀ id ∈ record.active, id ≤ record.context

/-- Whether each record's contexts come from those of the record before by entering and leaving
contexts. The first record follows on given contexts, all numbers below the limit being taken. -/
def Threaded : Nat → List Nat → List Record → Prop
  | _, _, [] => True
  | limit, active, record :: rest =>
      record.Aligned ∧ Resumes limit active record.active ∧
        ∃ later, limit ≤ later ∧ (∀ id ∈ record.active, id < later) ∧
          Threaded later record.active rest

namespace Threaded

theorem of_resumes {limit next : Nat} {active middle : List Nat} {records : List Record}
    (threaded : Threaded next middle records) (resumes : Resumes limit active middle)
    (grows : limit ≤ next) : Threaded limit active records := by
  cases records with
  | nil => trivial
  | cons record rest =>
      obtain ⟨aligned, first, later, grown, taken, others⟩ := threaded
      exact ⟨aligned, resumes.trans first grows, later, Nat.le_trans grows grown, taken, others⟩

theorem aligned {records : List Record} :
    ∀ {limit : Nat} {active : List Nat}, Threaded limit active records →
      ∀ record ∈ records, record.Aligned := by
  induction records with
  | nil => intro _ _ _ record member; cases member
  | cons first rest ih =>
      intro limit active threaded record member
      obtain ⟨aligned, _, later, _, _, others⟩ := threaded
      rcases List.mem_cons.mp member with rfl | member
      · exact aligned
      · exact ih others record member

/-- A context that is active at some later record, and was entered before, is active by now. -/
theorem active_of_later {records : List Record} {record : Record} {id : Nat}
    (member : record ∈ records) (inside : id ∈ record.active) :
    ∀ {limit : Nat} {active : List Nat}, Threaded limit active records → id < limit →
      id ∈ active := by
  induction records with
  | nil => cases member
  | cons first rest ih =>
      intro limit active threaded below
      obtain ⟨_, resumes, later, grows, _, others⟩ := threaded
      have here : id ∈ first.active := by
        rcases List.mem_cons.mp member with rfl | member
        · exact inside
        · exact ih member others (Nat.lt_of_lt_of_le below grows)
      exact (resumes id here below).1

end Threaded

namespace Alignment

theorem record?_aligned {registry : Registry} {alignment : Alignment} {current : Context}
    {others : List Context} {index : Nat} {log : StructLog} {record : Record}
    (numbered : alignment.Numbered) (contexts : alignment.contexts = current :: others)
    (made : record? registry alignment.contexts current index log = .ok (some record)) :
    record.Aligned ∧ record.active = alignment.activeIds.reverse ∧ record.index = index := by
  obtain ⟨⟨contract, code⟩, _, rest⟩ := bind_eq_ok.mp made
  dsimp only at rest
  split at rest
  · cases rest
  · rename_i mapped _
    obtain ⟨node, stored, equal⟩ := bind_eq_ok.mp rest
    cases equal
    have ids : alignment.activeIds = current.id :: others.map Context.id := by
      rw [activeIds, contexts, List.map_cons]
    have descending := numbered.descending
    refine ⟨⟨?_, List.pairwise_reverse.mpr descending, ?_, ?_⟩, rfl, rfl⟩
    · unfold Ast.node at stored
      split at stored
      · rename_i found
        cases stored
        rw [contract.ast.keyed _ _ found]
        exact found
      · cases stored
    · show current.id ∈ alignment.activeIds.reverse
      simp [ids]
    · intro id member
      have member : id ∈ alignment.activeIds := List.mem_reverse.mp member
      rw [ids] at descending member
      rcases List.mem_cons.mp member with rfl | member
      · exact Nat.le_refl _
      · exact Nat.le_of_lt ((List.pairwise_cons.mp descending).1 id member)

/-- A log leaves the contexts that are deeper. If one is left it executes the log, which may make a
record, and leave or enter a context. -/
theorem addLog_cases {registry : Registry} {inputs : TraceInputs} {before after : Alignment}
    {log : StructLog} {index : Nat}
    (added : addLog registry inputs before (log, index) = .ok after) :
    let left := before.leaveDeeper log.depth
    left.contexts = [] ∧ after = left ∨
      ∃ current others record, left.contexts = current :: others ∧
        record? registry left.contexts current index log = .ok record ∧
        (left.assign current record).follow registry inputs current index log record = .ok after := by
  unfold addLog at added
  dsimp only at added
  split at added
  · next none =>
      cases added
      exact .inl ⟨none, rfl⟩
  · next current others contexts =>
      obtain ⟨record, made, followed⟩ := bind_eq_ok.mp added
      exact .inr ⟨current, others, record, contexts, made, followed⟩

/-- What one log does: it may leave contexts, make a record, and leave or enter a context. -/
theorem addLog_leadsTo {registry : Registry} {inputs : TraceInputs} {before after : Alignment}
    {entry : StructLog × Nat} (numbered : before.Numbered)
    (added : addLog registry inputs before entry = .ok after) :
    ∃ middle, LeadsTo before middle ∧ LeadsTo middle after ∧
      (after.records = before.records ∨ ∃ record, after.records = before.records.push record ∧
        record.Aligned ∧ record.active = middle.activeIds.reverse ∧ record.index = entry.2) := by
  obtain ⟨log, index⟩ := entry
  have left : LeadsTo before (before.leaveDeeper log.depth) :=
    .of_suffix numbered (List.dropWhile_suffix _) rfl
  rcases addLog_cases added with ⟨_, rfl⟩ | ⟨current, others, record, contexts, made, followed⟩
  · exact ⟨_, left, .refl left.numbered, Or.inl rfl⟩
  · have assigned : LeadsTo before ((before.leaveDeeper log.depth).assign current record) :=
      .of_suffix numbered (List.dropWhile_suffix _) rfl
    obtain ⟨leads, records⟩ := follow_leadsTo assigned.numbered followed
    refine ⟨_, assigned, leads, ?_⟩
    cases record with
    | none => exact Or.inl records
    | some record =>
        obtain ⟨aligned, active, placed⟩ := record?_aligned left.numbered contexts made
        exact Or.inr ⟨record, records, aligned, active, placed⟩

theorem foldlM_threaded {registry : Registry} {inputs : TraceInputs}
    (entries : List (StructLog × Nat)) :
    ∀ {before after : Alignment}, before.Numbered →
      entries.foldlM (addLog registry inputs) before = .ok after →
      ∃ records, after.records.toList = before.records.toList ++ records ∧
        Threaded before.entered before.activeIds records ∧
        (records.map Record.index).Sublist (entries.map Prod.snd) := by
  induction entries with
  | nil =>
      intro before after _ ran
      cases ran
      exact ⟨[], by simp, trivial, List.Sublist.slnil⟩
  | cons entry entries ih =>
      intro before after numbered ran
      obtain ⟨next, added, rest⟩ := bind_eq_ok.mp ran
      obtain ⟨middle, first, second, made⟩ := addLog_leadsTo numbered added
      obtain ⟨records, listed, threaded, placed⟩ := ih second.numbered rest
      rw [List.map_cons]
      rcases made with same | ⟨record, pushed, aligned, active, here⟩
      · have onwards := threaded.of_resumes second.resumes second.grows
        exact ⟨records, by rw [listed, same], onwards.of_resumes first.resumes first.grows,
          placed.cons _⟩
      · have same : ∀ id, id ∈ middle.activeIds ↔ id ∈ record.active := by simp [active]
        refine ⟨record :: records, by rw [listed, pushed]; simp, ⟨aligned,
          first.resumes.of_mem (fun _ => Iff.rfl) same, middle.entered, first.grows, ?_, ?_⟩, ?_⟩
        · intro id member
          exact first.numbered.below id ((same id).mpr member)
        · exact threaded.of_resumes (second.resumes.of_mem same fun _ => Iff.rfl) second.grows
        · rw [List.map_cons, here]
          exact placed.cons_cons _

/-- An alignment starts with the context of the transaction. -/
theorem start_cases {registry : Registry} {inputs : TraceInputs} {depth : Nat}
    {alignment : Alignment} (started : start registry inputs depth = .ok alignment) :
    ∃ code address, alignment = empty.enter code address depth := by
  unfold start at started
  dsimp only at started
  split at started
  · obtain ⟨code, _, made⟩ := bind_eq_ok.mp started
    exact ⟨code, _, (Except.ok.inj made).symm⟩
  · split at started
    · cases started
    · obtain ⟨code, _, made⟩ := bind_eq_ok.mp started
      exact ⟨code, _, (Except.ok.inj made).symm⟩

theorem start_numbered {registry : Registry} {inputs : TraceInputs} {depth : Nat}
    {alignment : Alignment} (started : start registry inputs depth = .ok alignment) :
    alignment.Numbered ∧ alignment.records = #[] := by
  obtain ⟨code, address, rfl⟩ := start_cases started
  exact ⟨(enter_leadsTo ⟨List.Pairwise.nil, by simp [activeIds, empty]⟩ code address
    depth).numbered, rfl⟩

/-- An alignment takes in all logs, one after the other. -/
theorem ofInputs_cases {registry : Registry} {inputs : TraceInputs} {alignment : Alignment}
    (aligned : ofInputs registry inputs = .ok alignment) :
    ∃ depth started, start registry inputs depth = .ok started ∧
      inputs.trace.logs.zipIdx.foldlM (addLog registry inputs) started = .ok alignment := by
  obtain ⟨started, start, rest⟩ := bind_eq_ok.mp aligned
  obtain ⟨after, ran, finished⟩ := bind_eq_ok.mp rest
  split at finished
  · cases finished
    exact ⟨_, started, start, ran⟩
  · cases finished

/-- The records of a trace are in the order of their logs. -/
theorem ofInputs_threaded {registry : Registry} {inputs : TraceInputs} {alignment : Alignment}
    (aligned : ofInputs registry inputs = .ok alignment) :
    (∃ limit active, Threaded limit active alignment.records.toList) ∧
      alignment.records.toList.Pairwise fun first second => first.index < second.index := by
  obtain ⟨depth, started, start, ran⟩ := ofInputs_cases aligned
  obtain ⟨numbered, none⟩ := start_numbered start
  obtain ⟨records, listed, threaded, placed⟩ := foldlM_threaded _ numbered ran
  rw [none] at listed
  have all : alignment.records.toList = records := by
    rw [listed]
    rfl
  rw [all]
  refine ⟨⟨started.entered, started.activeIds, threaded⟩, ?_⟩
  rw [List.zipIdx_map_snd] at placed
  exact List.pairwise_map.mp (List.Pairwise.sublist placed (List.pairwise_lt_range' 1))

end Alignment

end SolTrace
