import SolTrace.Proofs.Trace.Locals
/-!
Declarations: which of the local variables that a function declares are listed at its later steps.
The activations of a context that was left stay until the next step, so what is declared before that
step in a function that one of them runs is lost with them.
-/
set_option autoImplicit false

namespace SolTrace

open Reduction

/-! ### Activations that were left -/

/-- The activations that a step at a record meets: those of contexts that have been left are
dropped before. -/
def activeAt (record : Record) (past : List Event) : List Invocation :=
  (active past).dropWhile (Invocation.unwound record)

/-- The activations of contexts that have been left, which the next step drops. -/
def leftOver (record : Record) (past : List Event) : List Invocation :=
  (active past).takeWhile (Invocation.unwound record)

/-- The number of the activation that a record belongs to. -/
def running? (record : Record) (past : List Event) : Option Nat :=
  (activeAt record past).head?.map Invocation.number

theorem leftOver_append_activeAt (record : Record) (past : List Event) :
    leftOver record past ++ activeAt record past = active past :=
  List.takeWhile_append_dropWhile

theorem owners_active (record : Record) (past : List Event) (scope : NodeId) :
    owners scope (active past) =
      owners scope (leftOver record past) ++ owners scope (activeAt record past) := by
  rw [← owners_append, leftOver_append_activeAt]

/-- As long as an activation runs, those below it are the same. -/
theorem activeAt_eq {later past : List Event} {record other : Record} {number : Nat}
    (first : running? other past = some number)
    (second : running? record (later ++ past) = some number) :
    activeAt record (later ++ past) = activeAt other past := by
  obtain ⟨invocation, inside, numbered⟩ := Option.map_eq_some_iff.mp first
  obtain ⟨invocation', inside', numbered'⟩ := Option.map_eq_some_iff.mp second
  obtain ⟨below, stack⟩ := List.head?_eq_some_iff.mp inside
  obtain ⟨below', stack'⟩ := List.head?_eq_some_iff.mp inside'
  have whole := leftOver_append_activeAt other past
  have whole' := leftOver_append_activeAt record (later ++ past)
  rw [stack] at whole
  rw [stack'] at whole'
  rw [stack, stack']
  exact (active_eq whole.symm whole'.symm (numbered.trans numbered'.symm)).symm

/-! ### Declarations -/

theorem Scopes.first?_sole {scopes : Scopes} {scope var : NodeId} {found : Option Assignment}
    (bound : ∀ other, scopes.binding? other var = if other = scope then found else none)
    (ids : List NodeId) : scopes.first? var ids = if scope ∈ ids then found else none := by
  induction ids with
  | nil => rfl
  | cons id ids ih =>
      rw [Scopes.first?, List.findSome?_cons, ← Scopes.first?, ih, bound]
      by_cases here : id = scope
      · cases found <;> simp [here]
      · simp [here, Ne.symm here]

/-- Whether only declarations in one scope have a number. One compilation numbers its nodes so. -/
structure Sole (records : List Record) (scope var : NodeId) : Prop where
  globals : ∀ record ∈ records, ∀ global ∈ record.contract.globals, global.var.id ≠ var
  parameters : ∀ record ∈ records, ∀ function, record.function? = some function →
    ∀ declaration ∈ record.contract.ast.signature function, declaration.id ≠ var
  declarations : ∀ record ∈ records, ∀ other assignment,
    declaredLocal? record = some (other, assignment) → assignment.var.id = var → other = scope

namespace Sole

variable {records : List Record} {scope var : NodeId} {past : List Event} {stack : List Invocation}
  {state : Reduction}

theorem binds?_elsewhere (sole : Sole records scope var) {event : Event}
    (listed : event.record ∈ records) {other : NodeId} (elsewhere : other ≠ scope) :
    event.binds? other var = none := by
  cases binds : event.binds? other var with
  | none => rfl
  | some assignment =>
      obtain ⟨id, declares | ⟨function, known, declaration, inside, same⟩⟩ :=
        Event.binds?_cases binds
      · exact absurd (sole.declarations _ listed _ _ declares id) elsewhere
      · exact absurd same (sole.parameters _ listed function known declaration inside)

/-- A variable is bound just as what was bound first in its scope. -/
theorem binding? (sole : Sole records scope var) (listed : ∀ event ∈ past, event.record ∈ records)
    (layered : Layered past stack state) (other : NodeId) :
    state.scopes.binding? other var =
      if other = scope then firstBound? scope var (owners scope stack) past else none := by
  have own {scope : NodeId} :
      state.scopes.binding? scope var = firstBound? scope var (owners scope stack) past := by
    refine (layered.binding scope var).resolve_right ?_
    rintro ⟨global, _, bound⟩
    obtain ⟨id, record, entered, inside⟩ := bound.mem_globals
    exact sole.globals record (listed _ entered) global inside id
  by_cases here : other = scope
  · rw [if_pos here, here, own]
  · rw [if_neg here, own]
    apply firstBound?_eq_none
    rintro later event earlier rfl binds
    exact absurd (sole.binds?_elsewhere (listed event (by simp)) here) binds

/-- A step in the scope of a variable lists what was bound first there. -/
theorem mem_visible (sole : Sole records scope var)
    (listed : ∀ event ∈ past, event.record ∈ records) (layered : Layered past stack state)
    {record : Record} {kind : StepKind} (inside : kind ≠ .functionOut)
    (around : scope ∈ scopesAround record) {assignment : Assignment} :
    assignment ∈ state.visible record kind ∧ assignment.var.id = var ↔
      (assignment.var.isReturn = true → record.node.kind = .returnStatement) ∧
        firstBound? scope var (owners scope stack) past = some assignment := by
  have found := Scopes.first?_sole (sole.binding? listed layered) (scopesAround record)
  rw [if_pos around] at found
  constructor
  · rintro ⟨shown, rfl⟩
    obtain ⟨_, named, first⟩ := layered.mem_visible.mp shown
    exact ⟨named, found ▸ first⟩
  · rintro ⟨named, first⟩
    have id : assignment.var.id = var := Kept.id (.inl first.symm)
    rw [first, ← id] at found
    exact ⟨layered.mem_visible.mpr ⟨inside, named, found⟩, id⟩

end Sole

/-- Whether a step's record is in the scope of a local variable that was declared before in the same
activation, for the first time there. Nothing else has the variable's number. -/
structure DeclaredBefore (records : List Record) (declaration record : Record)
    (between before : List Event) (scope : NodeId) (assignment : Assignment) : Prop where
  declares : declaredLocal? declaration = some (scope, assignment)
  around : scope ∈ scopesAround record
  named : assignment.var.isReturn = true → record.node.kind = .returnStatement
  sole : Sole records scope assignment.var.id
  running : ∃ number, running? declaration before = some number ∧
    running? record (between ++ .declares declaration :: before) = some number
  first : firstBound? scope assignment.var.id (owners scope (activeAt declaration before)) before =
    none

namespace DeclaredBefore

variable {records : List Record} {declaration record : Record} {between before : List Event}
  {scope : NodeId} {assignment : Assignment}

theorem activeAt_eq
    (declared : DeclaredBefore records declaration record between before scope assignment) :
    activeAt record (between ++ .declares declaration :: before) = activeAt declaration before := by
  obtain ⟨number, here, there⟩ := declared.running
  have since : running? declaration (.declares declaration :: before) = some number := here
  exact SolTrace.activeAt_eq since there

/-- The declaration counts for its own activation, unless one that was left is there as well. -/
theorem firstBound?_eq
    (declared : DeclaredBefore records declaration record between before scope assignment) :
    firstBound? scope assignment.var.id (owners scope (activeAt declaration before))
        (.declares declaration :: before) =
      if owners scope (leftOver declaration before) = [] then some assignment else none := by
  have same : owners scope (active (.declares declaration :: before)) =
      owners scope (leftOver declaration before) ++ owners scope (activeAt declaration before) :=
    owners_active declaration before scope
  rw [firstBound?, declared.first, Option.none_or, binds?_declares declared.declares, same]
  simp only [List.append_left_eq_self, and_self, if_true]

end DeclaredBefore

/-- Whether steps list the local variables that were declared in the same activation. If no
activation of a context that has been left is there at a declaration, or none has the scope in its
definition, all later steps in the scope list the variable where it was declared, and nowhere else.
Otherwise, as in a function that has just called itself and failed, the declaration is lost with
what was left: the variable is listed only if it is declared once more. -/
theorem declarations_listed (registry : Registry) (inputs : TraceInputs) (steps : List Step)
    (reduced : reduce registry inputs = .ok steps) :
    ∃ alignment, Alignment.ofInputs registry inputs = .ok alignment ∧
      ∀ step ∈ steps, step.kind = .jump ∨ step.kind = .line → ∃ later record past,
        alignment.timeline = later ++ .takes record step.kind :: past ∧
        step.index = record.index ∧
        step.calls = ((activeAt record past).map Invocation.call).reverse ∧
        ∀ between declaration before scope assignment,
          past = between ++ .declares declaration :: before →
          DeclaredBefore alignment.records.toList declaration record between before scope
            assignment →
          ((∀ invocation ∈ leftOver declaration before, scope ∉ invocation.nodes) →
            ∀ listed, listed ∈ step.assignments ∧ listed.var.id = assignment.var.id ↔
              listed = assignment) ∧
          ((∃ invocation ∈ leftOver declaration before, scope ∈ invocation.nodes) →
            ∀ listed ∈ step.assignments, listed.var.id = assignment.var.id →
              ∃ since event earlier, between = since ++ event :: earlier ∧
                event.binds? scope assignment.var.id = some listed) := by
  obtain ⟨alignment, aligned, shown⟩ := reduce_layered reduced
  refine ⟨alignment, aligned, fun step member plain => ?_⟩
  obtain ⟨later, record, past, state, split, layered, index, leaves | shows⟩ := shown step member
  · rcases plain with same | same <;> simp [same] at leaves
  have inside : step.kind ≠ .functionOut := by rcases plain with same | same <;> simp [same]
  have quiet : ∀ scope var, (Event.takes record step.kind).binds? scope var = none :=
    binds?_quiet record (by rcases plain with same | same <;> simp [same])
  have stack : active (.takes record step.kind :: past) = activeAt record past := by
    rcases plain with same | same <;> rw [same] <;> rfl
  rw [stack] at layered
  refine ⟨later, record, past, split, index, by rw [shows]; exact layered.calls, ?_⟩
  rintro between declaration before scope assignment rfl declared
  have listed : ∀ event ∈ Event.takes record step.kind ::
      (between ++ .declares declaration :: before), event.record ∈ alignment.records.toList :=
    fun event among => Alignment.record_of_timeline (by
      rw [split]
      exact List.mem_append_right _ among)
  rw [declared.activeAt_eq] at layered
  have lists {other : Assignment} :
      other ∈ step.assignments ∧ other.var.id = assignment.var.id ↔
        (other.var.isReturn = true → record.node.kind = .returnStatement) ∧
          firstBound? scope assignment.var.id (owners scope (activeAt declaration before))
            (.takes record step.kind :: (between ++ .declares declaration :: before)) =
              some other := by
    rw [shows]
    exact declared.sole.mem_visible listed layered inside declared.around
  have here := declared.firstBound?_eq
  constructor
  · intro apart other
    rw [if_pos (owners_eq_nil.mpr apart)] at here
    have kept := firstBound?_append here (.takes record step.kind :: between)
    rw [List.cons_append] at kept
    rw [lists, kept, Option.some.injEq]
    constructor
    · exact fun found => found.2.symm
    · rintro rfl
      exact ⟨declared.named, rfl⟩
  · rintro ⟨invocation, left, own⟩ other shown same
    rw [if_neg fun none => owners_eq_nil.mp none invocation left own] at here
    have found : firstBound? scope assignment.var.id (owners scope (activeAt declaration before))
        ((.takes record step.kind :: between) ++ .declares declaration :: before) = some other :=
      (lists.mp ⟨shown, same⟩).2
    obtain ⟨since, event, earlier, whole, binds⟩ := firstBound?_later here found
    cases since with
    | nil =>
        obtain ⟨rfl, rfl⟩ := List.cons.inj whole
        rw [quiet] at binds
        cases binds
    | cons first since => exact ⟨since, event, earlier, (List.cons.inj whole).2, binds⟩

namespace Sample

theorem retrying_records_own {record : Record} (member : record ∈ retryingRecords) :
    record.contract = spender ∧ record.function? = some spend ∧
      ((declaredLocal? record).map Prod.fst = some 2 ∨ declaredLocal? record = none) := by
  simp only [retryingRecords, List.mem_cons, List.not_mem_nil, or_false] at member
  rcases member with rfl | rfl | rfl | rfl | rfl | rfl | rfl | rfl | rfl | rfl | rfl
  · exact ⟨rfl, rfl, .inr rfl⟩
  · exact ⟨rfl, rfl, .inr rfl⟩
  · exact ⟨rfl, rfl, .inr rfl⟩
  · exact ⟨rfl, rfl, .inr rfl⟩
  · exact ⟨rfl, rfl, .inl rfl⟩
  · exact ⟨rfl, rfl, .inr rfl⟩
  · exact ⟨rfl, rfl, .inr rfl⟩
  · exact ⟨rfl, rfl, .inl rfl⟩
  · exact ⟨rfl, rfl, .inr rfl⟩
  · exact ⟨rfl, rfl, .inr rfl⟩
  · exact ⟨rfl, rfl, .inr rfl⟩

theorem change_sole : Sole retryingRecords 2 5 where
  globals record member global listed := by
    rw [(retrying_records_own member).1] at listed
    rw [List.mem_singleton.mp listed]
    decide
  parameters record member function known declaration listed := by
    obtain ⟨own, found, _⟩ := retrying_records_own member
    rw [found, Option.some.injEq] at known
    rw [own, ← known, spend_signature] at listed
    rw [List.mem_singleton.mp listed]
    decide
  declarations record member other assignment declared _ := by
    have scope := (retrying_records_own member).2.2
    rw [declared] at scope
    simpa using scope

/-- The declaration after the call that was reverted. -/
theorem first_declaredBefore :
    DeclaredBefore retryingRecords (changeRecord 4 [7, 8, 9]) (recurring 5 [7, 8, 9])
      [.declares (recurring 5 [7, 8, 9])] failed 2 (localAssignment changeVar 3) where
  declares := rfl
  around := by decide
  named := fun unnamed => nomatch unnamed
  sole := change_sole
  running := ⟨1, rfl, rfl⟩
  first := rfl

/-- The declaration after the internal call. -/
theorem second_declaredBefore :
    DeclaredBefore retryingRecords (changeRecord 7 [7, 8, 9, 10]) (recurring 8 [7, 8, 9, 10])
      [.declares (recurring 8 [7, 8, 9, 10])] recurred 2 (localAssignment changeVar 4) where
  declares := rfl
  around := by decide
  named := fun unnamed => nomatch unnamed
  sole := change_sole
  running := ⟨11, rfl, rfl⟩
  first := rfl

end Sample

/-- The variable that is declared right after the call that was reverted is not listed at the next
step. After the internal call, which nothing was left at, it is. -/
theorem declarations_listed_retrying :
    ∃ steps, reduce (.ofContracts [Sample.spender])
        (Sample.inputs Sample.retrying.execution.logs) = .ok steps ∧
      ((steps.filter fun step => step.kind ≠ .line).map fun step => (step.index, step.kind)) =
        [(0, .functionIn), (1, .jump), (2, .functionIn), (5, .jump), (6, .functionIn), (8, .jump),
          (9, .functionIn)] ∧
      ∀ step ∈ steps, step.kind = .jump →
        (step.index = 5 → ∀ listed ∈ step.assignments, listed.var.id ≠ 5) ∧
          (step.index = 8 → localAssignment Sample.changeVar 4 ∈ step.assignments) := by
  obtain ⟨steps, reduced, calls, records⟩ := Sample.retrying_reduces
  obtain ⟨alignment, aligned, lists⟩ := declarations_listed _ _ steps reduced
  have known := records alignment aligned
  refine ⟨steps, reduced, calls, fun step member kind => ?_⟩
  obtain ⟨later, record, past, split, here, _, declared⟩ := lists step member (.inl kind)
  rw [Sample.retrying_timeline known] at split
  rw [known] at declared
  rw [here]
  constructor
  · intro index listed shown var
    obtain ⟨rfl, _, rfl⟩ := (Sample.retrying_split split).1 index
    have left : ⟨5, Sample.reentered, Sample.spend⟩ ∈
        leftOver (Sample.changeRecord 4 [7, 8, 9]) Sample.failed := List.mem_singleton_self _
    obtain ⟨since, event, earlier, whole, binds⟩ :=
      (declared _ _ _ _ _ rfl Sample.first_declaredBefore).2 ⟨_, left, by decide⟩ listed shown var
    cases since with
    | nil =>
        cases whole
        cases binds
    | cons first since => exact absurd (List.cons.inj whole).2 (by simp)
  · intro index
    obtain ⟨rfl, _, rfl⟩ := (Sample.retrying_split split).2 index
    have nothing : ∀ invocation ∈ leftOver (Sample.changeRecord 7 [7, 8, 9, 10]) Sample.recurred,
        2 ∉ invocation.nodes := fun invocation among => nomatch among
    exact (((declared _ _ _ _ _ rfl Sample.second_declaredBefore).1 nothing _).mpr rfl).1

end SolTrace
