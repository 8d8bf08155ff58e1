import SolTrace.Proofs.Trace.Globals
/-!
Tracking the bindings through a trace: at each step the scopes around it bind a state variable where
the last contract that bound it in one of them keeps it.
-/
set_option autoImplicit false

namespace SolTrace.Reduction

/-! ### The bindings at a point of a trace -/

/-- Whether a state variable of one of the records' contracts is bound in a scope. -/
def IsGlobalScope (records : List Record) (scope : NodeId) : Prop :=
  ∃ record ∈ records, scope ∈ record.contract.globalScopes

/-- Whether a state variable of one of the records' contracts has a number. -/
def IsGlobal (records : List Record) (var : NodeId) : Prop :=
  ∃ record ∈ records, ∃ global ∈ record.contract.globals, global.var.id = var

/-- Whether no number of a state variable, or of a scope that one is bound in, is used inside of a
function as well. One compilation numbers its nodes so; two may clash. -/
structure Apart (records : List Record) : Prop where
  functions : ∀ record ∈ records, ∀ function, record.function? = some function →
    ∀ node ∈ function :: record.contract.ast.walk function.id, ¬ IsGlobalScope records node.id
  parameters : ∀ record ∈ records, ∀ function, record.function? = some function →
    ∀ declaration ∈ record.contract.ast.signature function,
      declaration.flag "stateVariable" = false ∧ ¬ IsGlobal records declaration.id
  locals : ∀ record ∈ records, record.node.kind = .variableDeclaration →
    record.node.flag "stateVariable" = false →
      ¬ IsGlobal records record.node.id ∧
        ∀ scope, localScope? record = some scope → ¬ IsGlobalScope records scope

/-- Whether every binding is of a local variable or was made at one of the entries. -/
def Sourced (entries : List Record) (state : Reduction) : Prop :=
  Everywhere (fun _ _ assignment =>
    (∃ entry ∈ entries, assignment ∈ entry.contract.globals) ∨ IsLocal assignment) state

/-- Whether the state variables are bound as the entries bind them. -/
structure Tracks (records entries : List Record) (state : Reduction) : Prop where
  address : state.bound = entries.head?.map Record.address
  same : ∀ scope, IsGlobalScope records scope → ∀ var,
    state.scopes.binding? scope var = boundAt? entries scope var
  frames : ∀ frame ∈ state.frames, (∀ id ∈ frame.nodes, ¬ IsGlobalScope records id) ∧
    ∀ entry ∈ frame.shadowed, ¬ IsGlobalScope records entry.1
  others : Everywhere (fun scope var assignment => ¬ IsGlobalScope records scope →
    assignment.var.state = false ∧ ¬ IsGlobal records var) state

section

variable {records entries : List Record} {state after : Reduction} {record : Record}

theorem Sourced.enter (sourced : Sourced entries state) {function : Node}
    (entered : state.enterFunction record function = .ok after) :
    Sourced (record :: entries) after := by
  refine Everywhere.enterFunction (Everywhere.mono sourced ?_) entered ?_ ?_
  · rintro _ _ assignment (⟨entry, inside, known⟩ | isLocal)
    · exact Or.inl ⟨entry, List.mem_cons_of_mem _ inside, known⟩
    · exact Or.inr isLocal
  · intro scope var global found
    exact Or.inl ⟨record, List.mem_cons_self, (Contract.mem_globals_of_globalAt? found).1⟩
  · intro _ _ var position _
    exact Or.inr (localAssignment_isLocal _ position)

theorem Sourced.registerLocal (sourced : Sourced entries state)
    (registered : state.registerLocal record = .ok after) : Sourced entries after :=
  Everywhere.registerLocal sourced registered fun _ _ _ _ _ _ =>
    Or.inr (localAssignment_isLocal _ _)

theorem Tracks.leave (tracks : Tracks records entries state) :
    Tracks records entries state.leaveFunction := by
  obtain ⟨address, same, frames, others⟩ := tracks
  refine ⟨?_, ?_, ?_, others.leave⟩
  · rw [← address]
    unfold leaveFunction
    split <;> rfl
  · intro scope global var
    rw [← same scope global var]
    unfold leaveFunction
    cases active : state.frames with
    | nil => rfl
    | cons frame rest =>
        obtain ⟨nodes, saved⟩ := frames frame (by simp [active])
        have kept : ((state.scopes.clear frame.nodes).restore frame.shadowed)[scope]? =
            state.scopes[scope]? := by
          rcases Scopes.getElem?_restore frame.shadowed (state.scopes.clear frame.nodes) scope with
            ⟨bindings, member, _⟩ | ⟨_, unchanged⟩
          · exact absurd global (saved _ member)
          · rw [unchanged, Scopes.getElem?_clear, if_neg]
            exact fun inside => nodes scope inside global
        simp only [Scopes.binding?, Scopes.bindings, kept]
  · intro frame member
    exact frames frame (List.mem_of_mem_tail (by simpa using member))

theorem Tracks.registerLocal (apart : Apart records) (member : record ∈ records)
    (tracks : Tracks records entries state)
    (registered : state.registerLocal record = .ok after) : Tracks records entries after := by
  obtain ⟨address, same, frames, others⟩ := tracks
  have kept := others.registerLocal registered (by
    intro scope var found kind flag declared _
    obtain ⟨id, isState⟩ := declared_id declared
    rw [localAssignment_var, isState, id]
    exact ⟨flag, (apart.locals record member kind flag).1⟩)
  rcases registerLocal_cases registered with rfl | ⟨scope, var, found, kind, flag, declared, rfl⟩
  · exact ⟨address, same, frames, others⟩
  · refine ⟨address, ?_, frames, kept⟩
    intro other global id
    rw [Scopes.binding?_bind, if_neg]
    · exact same other global id
    · rintro ⟨rfl, _⟩
      exact (apart.locals record member kind flag).2 scope found global

theorem Tracks.enter (apart : Apart records) (member : record ∈ records)
    (tracks : Tracks records entries state) {function : Node}
    (known : record.function? = some function)
    (entered : state.enterFunction record function = .ok after) :
    Tracks records (record :: entries) after := by
  obtain ⟨address, same, frames, others⟩ := tracks
  have outside := apart.functions record member function known
  have parameters := apart.parameters record member function known
  have kept := others.enterFunction entered
    (by
      intro scope var global found isLocal
      exact absurd ⟨record, member, (Contract.mem_globals_of_globalAt? found).2.2⟩ isLocal)
    (by
      intro declaration inside var position declared _
      obtain ⟨id, isState⟩ := declared_id declared
      rw [localAssignment_var, withName_state, isState, id]
      exact parameters declaration inside)
  obtain ⟨scopes, binds, made⟩ := bind_eq_ok.mp entered
  cases made
  refine ⟨by simp, ?_, ?_, kept⟩
  · intro scope global var
    have cleared : scope ∉ (record.contract.ast.walk function.id).map Node.id := by
      intro inside
      obtain ⟨node, walked, rfl⟩ := List.mem_map.mp inside
      exact outside node (List.mem_cons_of_mem _ walked) global
    rcases bindDeclarations_binding? binds scope var with unchanged | ⟨rfl, _⟩
    · refine Eq.trans unchanged ?_
      rw [Scopes.binding?_clear, if_neg cleared]
      exact bindGlobals_binding? state record entries address scope var (same scope global var)
    · exact absurd global (outside function List.mem_cons_self)
  · intro frame inside
    rcases List.mem_cons.mp inside with rfl | inside
    · have nodes : ∀ id ∈ (record.contract.ast.walk function.id).map Node.id,
          ¬ IsGlobalScope records id := by
        intro id listed
        obtain ⟨node, walked, rfl⟩ := List.mem_map.mp listed
        exact outside node (List.mem_cons_of_mem _ walked)
      exact ⟨nodes, fun entry saved => nodes entry.1 (Scopes.mem_pick saved).1⟩
    · exact frames frame (bindGlobals_frames state record ▸ inside)

/-- Of the state variables those are shown that the entries bind. -/
theorem Tracks.first? (tracks : Tracks records entries state)
    (subset : ∀ entry ∈ entries, entry ∈ records) {assignment : Assignment}
    (isState : assignment.var.state = true) (var : NodeId) (ids : List NodeId) :
    state.scopes.first? var ids = some assignment ↔
      ids.findSome? (fun scope => boundAt? entries scope var) = some assignment := by
  induction ids with
  | nil => rfl
  | cons scope ids ih =>
      unfold Scopes.first? at ih ⊢
      rw [List.findSome?_cons, List.findSome?_cons]
      by_cases global : IsGlobalScope records scope
      · rw [tracks.same scope global var]
        cases boundAt? entries scope var with
        | none => exact ih
        | some found => rfl
      · have none : ∀ other, boundAt? entries other var = none ∨ IsGlobal records var := by
          intro other
          cases found : boundAt? entries other var with
          | none => exact Or.inl rfl
          | some bound =>
              obtain ⟨entry, inside, member, id, _⟩ := boundAt?_source found
              exact Or.inr ⟨entry, subset entry inside, bound, member, id⟩
        have missing : boundAt? entries scope var = Option.none := by
          cases found : boundAt? entries scope var with
          | none => rfl
          | some bound =>
              obtain ⟨entry, inside, _, _, kept⟩ := boundAt?_source found
              exact absurd ⟨entry, subset entry inside, kept⟩ global
        rw [missing]
        cases found : state.scopes.binding? scope var with
        | none => exact ih
        | some bound =>
            obtain ⟨plain, own⟩ := tracks.others.bound scope var bound found global
            have nowhere : ids.findSome? (fun scope => boundAt? entries scope var) =
                Option.none := by
              refine List.findSome?_eq_none_iff.mpr ?_
              intro other _
              exact (none other).resolve_right own
            simp only [nowhere, Option.some.injEq, reduceCtorEq, iff_false]
            rintro rfl
            simp [plain] at isState

/-! ### Steps -/

/-- Whether a step of a kind at a record shows a state variable, if every state variable is where
it was bound last. -/
def Shown (entries : List Record) (record : Record) (kind : StepKind) (assignment : Assignment) :
    Prop :=
  kind ≠ .functionOut ∧
    (record.node.kind = .returnStatement ∨ assignment.var.isReturn = false) ∧
    ∃ var, (scopesAround record).findSome? (fun scope => boundAt? entries scope var) =
      some assignment

/-- What the entries tell about the variables that a step of a record lists. -/
structure Explained (records entries : List Record) (record : Record) (step : Step) : Prop where
  index : step.index = record.index
  sources : ∀ assignment ∈ step.assignments,
    (∃ entry ∈ entries, assignment ∈ entry.contract.globals) ∨ IsLocal assignment
  exact : Apart records → ∀ assignment : Assignment, assignment.var.state = true →
    (assignment ∈ step.assignments ↔ Shown entries record step.kind assignment)

/-- Whether the bindings of a state are those that the entries make. -/
structure Knows (records entries : List Record) (state : Reduction) : Prop where
  sourced : Sourced entries state
  tracks : Apart records → Tracks records entries state

/-- Whether a state is reached from another one by steps of a record. -/
structure Explains (records entries : List Record) (record : Record) (before after : Reduction) :
    Prop where
  knows : Knows records entries after
  steps : ∀ step ∈ after.steps, step ∈ before.steps ∨ Explained records entries record step

theorem Knows.explains (knows : Knows records entries after) (steps : after.steps = state.steps) :
    Explains records entries record state after :=
  ⟨knows, fun _ member => Or.inl (steps ▸ member)⟩

theorem Knows.congr (knows : Knows records entries state) (scopes : after.scopes = state.scopes)
    (frames : after.frames = state.frames) (bound : after.bound = state.bound) :
    Knows records entries after := by
  refine ⟨Everywhere.congr knows.sourced scopes frames, ?_⟩
  intro apart
  obtain ⟨address, same, kept, others⟩ := knows.tracks apart
  exact ⟨bound.trans address, scopes ▸ same, frames ▸ kept, others.congr scopes frames⟩

theorem Knows.leave (knows : Knows records entries state) :
    Knows records entries state.leaveFunction :=
  ⟨Everywhere.leave knows.sourced, fun apart => (knows.tracks apart).leave⟩

theorem enterFunction_steps {function : Node}
    (entered : state.enterFunction record function = .ok after) : after.steps = state.steps := by
  obtain ⟨scopes, _, made⟩ := bind_eq_ok.mp entered
  cases made
  exact bindGlobals_steps state record

theorem Knows.enter (knows : Knows records entries state) (member : record ∈ records)
    {function : Node} (known : record.function? = some function)
    (entered : state.enterFunction record function = .ok after) :
    Knows records (record :: entries) after :=
  ⟨Sourced.enter knows.sourced entered, fun apart =>
    (knows.tracks apart).enter apart member known entered⟩

theorem Knows.stepAt (knows : Knows records entries state)
    (subset : ∀ entry ∈ entries, entry ∈ records) (kind : StepKind) :
    Explained records entries record (state.stepAt record kind) := by
  refine ⟨rfl, ?_, ?_⟩
  · intro assignment member
    simp only [Reduction.stepAt, visible] at member
    split at member
    · cases member
    · obtain ⟨var, found⟩ := Scopes.mem_collect.mp (List.mem_filter.mp member).1
      obtain ⟨scope, _, bound⟩ := List.exists_of_findSome?_eq_some found
      exact knows.sourced.bound scope var assignment bound
  · intro apart assignment isState
    simp only [Reduction.stepAt, visible, Shown]
    by_cases leaves : kind = .functionOut
    · simp [leaves]
    · rw [if_neg leaves, List.mem_filter, Scopes.mem_collect]
      simp only [(knows.tracks apart).first? subset isState, ne_eq, leaves, not_false_eq_true,
        true_and, Bool.or_eq_true, beq_iff_eq, Bool.not_eq_true']
      exact and_comm

theorem Explains.emit {before : Reduction}
    (explains : Explains records entries record before state)
    (subset : ∀ entry ∈ entries, entry ∈ records) (kind : StepKind) :
    Explains records entries record before (state.emit record kind) := by
  refine ⟨explains.knows.congr rfl rfl rfl, ?_⟩
  intro step member
  rcases Array.mem_push.mp member with member | rfl
  · exact explains.steps step member
  · exact Or.inr (explains.knows.stepAt subset kind)

theorem Explains.leave {before : Reduction}
    (explains : Explains records entries record before state) :
    Explains records entries record before state.leaveFunction :=
  ⟨explains.knows.leave, fun step member => explains.steps step (by simpa using member)⟩

theorem Explains.ready {before : Reduction}
    (explains : Explains records entries record before state) (index : Nat) (other : Record) :
    Explains records entries record before ((state.mergeThrough index).dropUnwound other) :=
  leaveWhile_preserves (motive := Explains records entries record before)
    (fun _ explains => explains.leave) _ ⟨explains.knows.congr rfl rfl rfl, explains.steps⟩

/-- The steps of a record that enters no function. -/
theorem Explains.replayStep {before : Reduction}
    (explains : Explains records entries record before state)
    (subset : ∀ entry ∈ entries, entry ∈ records) {kind : StepKind} (other : kind ≠ .functionIn)
    (stepped : replayStep record state kind = .ok after) :
    Explains records entries record before after := by
  have ready := explains.ready record.index record
  rcases takeStep_cases stepped with ⟨_, rfl⟩ | ⟨rfl, _⟩ | ⟨rfl, _⟩ | ⟨rfl, _, rfl⟩ |
    ⟨rfl, _, left⟩
  · exact ready.emit subset kind
  · exact absurd rfl other
  · exact absurd rfl other
  · exact leaveWhile_preserves (motive := Explains records entries record before)
      (fun _ explains => (explains.emit subset .functionOut).leave) _ ready
  · obtain ⟨frame, frames, _, _, rfl⟩ := exitFunction_cases left
    exact (ready.emit subset .functionOut).leave

theorem Explains.foldlM {before : Reduction} (subset : ∀ entry ∈ entries, entry ∈ records)
    (kinds : List StepKind) (others : ∀ kind ∈ kinds, kind ≠ .functionIn) :
    ∀ {state : Reduction}, Explains records entries record before state →
      kinds.foldlM (Reduction.replayStep record) state = .ok after →
      Explains records entries record before after := by
  induction kinds with
  | nil =>
      intro state explains replayed
      cases replayed
      exact explains
  | cons kind kinds ih =>
      intro state explains replayed
      obtain ⟨middle, first, rest⟩ := bind_eq_ok.mp replayed
      exact ih (fun later member => others later (List.mem_cons_of_mem _ member))
        (explains.replayStep subset (others kind List.mem_cons_self) first) rest

/-- The entries of a record and the entries before. -/
theorem entriesOf_append (front : List (Record × List StepKind)) (record : Record)
    (kinds : List StepKind) :
    entriesOf (front ++ [(record, kinds)]) =
      if kinds.contains .functionIn && record.function?.isSome then record :: entriesOf front
      else entriesOf front := by
  unfold entriesOf
  rw [List.filter_append, List.map_append, List.reverse_append, List.filter_singleton]
  cases kinds.contains .functionIn && record.function?.isSome <;> rfl

/-- One record. An entry comes before the other steps of its record. -/
theorem Knows.replay {front : List (Record × List StepKind)}
    (knows : Knows records (entriesOf front) state) (member : record ∈ records)
    (subset : ∀ entry ∈ entriesOf front, entry ∈ records) {kinds : List StepKind}
    (once : ∀ kind ∈ kinds.tail, kind ≠ .functionIn)
    (replayed : state.replay (record, kinds) = .ok after) :
    Explains records (entriesOf (front ++ [(record, kinds)])) record state after := by
  obtain ⟨middle, registered, stepped⟩ := bind_eq_ok.mp replayed
  have steps := registerLocal_steps registered
  have begun : Explains records (entriesOf front) record state middle :=
    Knows.explains ⟨Sourced.registerLocal knows.sourced registered, fun apart =>
      (knows.tracks apart).registerLocal apart member registered⟩ steps
  rw [entriesOf_append]
  cases kinds with
  | nil =>
      cases stepped
      exact begun
  | cons kind kinds =>
      by_cases enters : kind = .functionIn
      · subst enters
        obtain ⟨middle, first, rest⟩ := bind_eq_ok.mp stepped
        have ready := begun.ready record.index record
        unfold Reduction.replayStep takeStep at first
        cases known : record.function? with
        | none =>
            simp only [known] at first
            cases first
            simpa [known] using ready.foldlM subset kinds once rest
        | some function =>
            simp only [known] at first
            obtain ⟨entered, enter, emitted⟩ := bind_eq_ok.mp first
            cases emitted
            have larger : ∀ entry ∈ record :: entriesOf front, entry ∈ records := by
              intro entry inside
              rcases List.mem_cons.mp inside with rfl | inside
              · exact member
              · exact subset entry inside
            have inner : Explains records (record :: entriesOf front) record state entered :=
              (ready.knows.enter member known enter).explains
                ((enterFunction_steps enter).trans ((leaveWhile_id _ _ _ rfl).2.trans steps))
            simpa [known] using (inner.emit larger .functionIn).foldlM larger kinds once rest
      · have others : ∀ later ∈ kind :: kinds, later ≠ .functionIn := by
          intro later inside
          rcases List.mem_cons.mp inside with rfl | inside
          · exact enters
          · exact once later inside
        have none : (kind :: kinds).contains .functionIn = false := by
          simpa using fun inside => others _ inside rfl
        rw [none]
        exact begun.foldlM subset _ others stepped

end

end SolTrace.Reduction
