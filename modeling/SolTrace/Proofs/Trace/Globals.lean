import SolTrace.Proofs.Trace.Bindings
import SolTrace.Proofs.Trace.CallStack
/-!
The bindings of state variables: which contracts bind them, and what one record does to all bound
variables.
-/
set_option autoImplicit false

namespace SolTrace

/-! ### Binding -/

/-- The scopes that the state variables of a contract are bound in. -/
def Contract.globalScopes (contract : Contract) : List NodeId :=
  contract.globals.flatMap fun global => [contract.node, global.var.scope]

/-- The state variable of a number that a contract binds in a scope. -/
def Contract.globalAt? (contract : Contract) (scope var : NodeId) : Option Assignment :=
  contract.globals.reverse.find? fun global =>
    global.var.id == var && (contract.node == scope || global.var.scope == scope)

/-- The contracts whose state variables are bound at entries of functions, latest first: those that
are entered on another account than the entry before. -/
def binders : List Record → List Contract
  | [] => []
  | record :: earlier =>
      if earlier.head?.map Record.address = some record.address then binders earlier
      else record.contract :: binders earlier

/-- The state variable of a number that was bound last in a scope. -/
def boundAt? (entries : List Record) (scope var : NodeId) : Option Assignment :=
  (binders entries).findSome? fun contract => contract.globalAt? scope var

/-- The records that functions are entered at, latest first. -/
def entriesOf (classified : List (Record × List StepKind)) : List Record :=
  ((classified.filter fun entry => entry.2.contains .functionIn && entry.1.function?.isSome).map
    Prod.fst).reverse

theorem mem_of_entriesOf {classified : List (Record × List StepKind)} {record : Record}
    (entered : record ∈ entriesOf classified) : record ∈ classified.map Prod.fst := by
  obtain ⟨entry, kept, rfl⟩ := List.mem_map.mp (List.mem_reverse.mp entered)
  exact List.mem_map_of_mem (List.mem_filter.mp kept).1

theorem Contract.mem_globals_of_globalAt? {contract : Contract} {scope var : NodeId}
    {global : Assignment} (found : contract.globalAt? scope var = some global) :
    global ∈ contract.globals ∧ global.var.id = var ∧ scope ∈ contract.globalScopes := by
  have member := List.mem_reverse.mp (List.mem_of_find?_eq_some found)
  have holds := List.find?_some found
  simp only [Bool.and_eq_true, beq_iff_eq, Bool.or_eq_true] at holds
  refine ⟨member, holds.1, List.mem_flatMap.mpr ⟨global, member, ?_⟩⟩
  rcases holds.2 with rfl | rfl <;> simp

theorem mem_binders {contract : Contract} :
    ∀ {entries : List Record}, contract ∈ binders entries →
      ∃ record ∈ entries, record.contract = contract := by
  intro entries
  induction entries with
  | nil => intro member; cases member
  | cons record earlier ih =>
      intro member
      simp only [binders] at member
      split at member
      · obtain ⟨other, inside, same⟩ := ih member
        exact ⟨other, List.mem_cons_of_mem _ inside, same⟩
      · rcases List.mem_cons.mp member with rfl | member
        · exact ⟨record, List.mem_cons_self, rfl⟩
        · obtain ⟨other, inside, same⟩ := ih member
          exact ⟨other, List.mem_cons_of_mem _ inside, same⟩

theorem boundAt?_source {entries : List Record} {scope var : NodeId} {global : Assignment}
    (found : boundAt? entries scope var = some global) :
    ∃ record ∈ entries, global ∈ record.contract.globals ∧ global.var.id = var ∧
      scope ∈ record.contract.globalScopes := by
  obtain ⟨contract, member, bound⟩ := List.exists_of_findSome?_eq_some found
  obtain ⟨record, inside, rfl⟩ := mem_binders member
  exact ⟨record, inside, Contract.mem_globals_of_globalAt? bound⟩

namespace Reduction

theorem binding?_globals (node scope var : NodeId) (globals : List Assignment) :
    ∀ scopes : Scopes,
      (globals.foldl (fun scopes global =>
        (scopes.bind node global).bind global.var.scope global) scopes).binding? scope var =
        (globals.reverse.find? fun global =>
          global.var.id == var && (node == scope || global.var.scope == scope)).or
          (scopes.binding? scope var) := by
  induction globals with
  | nil => intro scopes; simp
  | cons global globals ih =>
      intro scopes
      rw [List.foldl_cons, ih, List.reverse_cons, List.find?_append, Option.or_assoc]
      congr 1
      rw [Scopes.binding?_bind, Scopes.binding?_bind]
      by_cases same : global.var.id = var <;> by_cases here : global.var.scope = scope <;>
        by_cases own : node = scope <;> simp [same, here, own]

/-- The account whose state variables are bound is that of the last entry. -/
theorem bindGlobals_binding? (state : Reduction) (record : Record) (entries : List Record)
    (bound : state.bound = entries.head?.map Record.address) (scope var : NodeId)
    (before : state.scopes.binding? scope var = boundAt? entries scope var) :
    (state.bindGlobals record).scopes.binding? scope var =
      boundAt? (record :: entries) scope var := by
  unfold bindGlobals boundAt? binders
  rw [← bound]
  by_cases same : state.bound = some record.address
  · rw [if_pos same, if_pos same]
    exact before
  · rw [if_neg same, if_neg same, List.findSome?_cons, binding?_globals, before]
    unfold Contract.globalAt?
    cases record.contract.globals.reverse.find? _ <;> rfl

@[simp] theorem bindGlobals_bound (state : Reduction) (record : Record) :
    (state.bindGlobals record).bound = some record.address := by
  unfold bindGlobals
  split <;> simp [*]

/-! ### What one record does -/

/-- The scope of a local variable. -/
def localScope? (record : Record) : Option NodeId :=
  record.node.scope?.orElse fun _ => record.contract.ast.parent? record.node.id

theorem declared_id {resolver : Resolver} {node : Node} {var : Variable}
    (declared : resolver.declared node = .ok var) :
    var.id = node.id ∧ var.state = node.flag "stateVariable" := by
  unfold Resolver.declared at declared
  cases child : node.child? "typeName" with
  | none =>
      simp only [child] at declared
      obtain ⟨_, missing, _⟩ := bind_eq_ok.mp declared
      cases missing
  | some type =>
      simp only [child] at declared
      obtain ⟨type, _, made⟩ := bind_eq_ok.mp declared
      cases made
      exact ⟨rfl, rfl⟩

/-- Whether an assignment is a parameter or a local variable. -/
def IsLocal (assignment : Assignment) : Prop :=
  ∃ position, assignment.location = .memory position ∨ assignment.location = .stack position

theorem localAssignment_isLocal (var : Variable) (position : Nat) :
    IsLocal (localAssignment var position) := by
  refine ⟨position, ?_⟩
  unfold localAssignment
  by_cases memory : var.location = .memory <;> simp [memory]

@[simp] theorem localAssignment_var (var : Variable) (position : Nat) :
    (localAssignment var position).var = var := rfl

@[simp] theorem withName_id (var : Variable) (position : Nat) :
    (withName var position).id = var.id := by
  unfold withName
  split <;> rfl

@[simp] theorem withName_state (var : Variable) (position : Nat) :
    (withName var position).state = var.state := by
  unfold withName
  split <;> rfl

theorem registerLocal_cases {state after : Reduction} {record : Record}
    (registered : state.registerLocal record = .ok after) :
    after = state ∨ ∃ scope var, localScope? record = some scope ∧
      record.node.kind = .variableDeclaration ∧ record.node.flag "stateVariable" = false ∧
      record.contract.resolver.declared record.node = .ok var ∧
      after = { state with
        scopes := state.scopes.bind scope (localAssignment var record.log.stack.length) } := by
  unfold registerLocal at registered
  by_cases skipped : record.node.kind ≠ .variableDeclaration ∨ record.node.flag "stateVariable"
  · rw [if_pos skipped] at registered
    exact Or.inl (Except.ok.inj registered).symm
  · rw [if_neg skipped] at registered
    simp only [not_or, ne_eq, Decidable.not_not, Bool.not_eq_true] at skipped
    split at registered
    · exact Or.inl (Except.ok.inj registered).symm
    · rename_i scope found
      split at registered
      · exact Or.inl (Except.ok.inj registered).symm
      · obtain ⟨var, declared, made⟩ := bind_eq_ok.mp registered
        cases made
        exact Or.inr ⟨scope, var, found, skipped.1, skipped.2, declared, rfl⟩

theorem registerLocal_frames {state after : Reduction} {record : Record}
    (registered : state.registerLocal record = .ok after) : after.frames = state.frames := by
  rcases registerLocal_cases registered with rfl | ⟨_, _, _, _, _, _, rfl⟩ <;> rfl

theorem registerLocal_steps {state after : Reduction} {record : Record}
    (registered : state.registerLocal record = .ok after) : after.steps = state.steps := by
  rcases registerLocal_cases registered with rfl | ⟨_, _, _, _, _, _, rfl⟩ <;> rfl

theorem bindDeclarations_binding? {record : Record} {function : Node} {scopes bound : Scopes}
    (binds : bindDeclarations record function scopes = .ok bound) (scope var : NodeId) :
    bound.binding? scope var = scopes.binding? scope var ∨
      scope = function.id ∧ ∃ declaration ∈ record.contract.ast.signature function,
        ∃ declared position, record.contract.resolver.declared declaration = .ok declared ∧
          declared.id = var ∧
          bound.binding? scope var =
            some (localAssignment (withName declared position) position) := by
  have listed : ∀ entry ∈ declarations record function,
      entry.1 ∈ record.contract.ast.signature function :=
    fun entry member => List.mem_reverse.mp (List.of_mem_zip member).1
  unfold bindDeclarations at binds
  generalize declarations record function = entries at listed binds
  induction entries generalizing scopes with
  | nil =>
      cases binds
      exact Or.inl rfl
  | cons entry entries ih =>
      obtain ⟨declaration, position⟩ := entry
      rw [List.foldlM_cons] at binds
      obtain ⟨first, made, rest⟩ := bind_eq_ok.mp binds
      obtain ⟨declared, known, equal⟩ := bind_eq_ok.mp made
      cases equal
      rcases ih (fun other member => listed other (List.mem_cons_of_mem _ member)) rest with
        same | later
      · rw [same, Scopes.binding?_bind]
        by_cases here : function.id = scope ∧ declared.id = var
        · obtain ⟨rfl, rfl⟩ := here
          refine Or.inr ⟨rfl, declaration, listed _ List.mem_cons_self, declared, position, known,
            rfl, ?_⟩
          simp
        · refine Or.inl (if_neg ?_)
          simpa using here
      · exact Or.inr later

/-! ### All bindings -/

/-- Whether something holds of all bindings, those that were set aside included. -/
structure Everywhere (property : NodeId → NodeId → Assignment → Prop) (state : Reduction) :
    Prop where
  bound : ∀ scope var assignment, state.scopes.binding? scope var = some assignment →
    property scope var assignment
  saved : ∀ frame ∈ state.frames, ∀ entry ∈ frame.shadowed, ∀ var assignment,
    entry.2[var]? = some assignment → property entry.1 var assignment

section

variable {property : NodeId → NodeId → Assignment → Prop} {state : Reduction}

theorem Everywhere.mono {weaker : NodeId → NodeId → Assignment → Prop}
    (everywhere : Everywhere property state)
    (implies : ∀ scope var assignment, property scope var assignment →
      weaker scope var assignment) :
    Everywhere weaker state :=
  ⟨fun scope var assignment found => implies _ _ _ (everywhere.bound scope var assignment found),
    fun frame member entry inside var assignment found =>
      implies _ _ _ (everywhere.saved frame member entry inside var assignment found)⟩

theorem Everywhere.congr (everywhere : Everywhere property state) {after : Reduction}
    (scopes : after.scopes = state.scopes) (frames : after.frames = state.frames) :
    Everywhere property after :=
  ⟨scopes ▸ everywhere.bound, frames ▸ everywhere.saved⟩

theorem Everywhere.leave (everywhere : Everywhere property state) :
    Everywhere property state.leaveFunction := by
  unfold leaveFunction
  cases active : state.frames with
  | nil => exact everywhere
  | cons frame frames =>
      constructor
      · intro scope var assignment found
        simp only [Scopes.binding?, Scopes.bindings] at found
        rcases Scopes.getElem?_restore frame.shadowed (state.scopes.clear frame.nodes) scope with
          ⟨bindings, member, kept⟩ | ⟨_, kept⟩
        · rw [kept] at found
          exact everywhere.saved frame (by simp [active]) (scope, bindings) member var assignment
            found
        · rw [kept, Scopes.getElem?_clear] at found
          split at found
          · simp at found
          · exact everywhere.bound scope var assignment found
      · intro other member
        exact everywhere.saved other (by simp [active, List.mem_cons_of_mem _ member])

theorem Everywhere.bindGlobals (everywhere : Everywhere property state) {record : Record}
    (globals : ∀ scope var global, record.contract.globalAt? scope var = some global →
      property scope var global) : Everywhere property (state.bindGlobals record) := by
  unfold Reduction.bindGlobals
  split
  · exact everywhere
  · refine ⟨?_, everywhere.saved⟩
    intro scope var assignment found
    rw [binding?_globals, Option.or_eq_some_iff] at found
    rcases found with found | ⟨_, found⟩
    · exact globals scope var assignment found
    · exact everywhere.bound scope var assignment found

theorem Everywhere.registerLocal (everywhere : Everywhere property state) {after : Reduction}
    {record : Record} (registered : state.registerLocal record = .ok after)
    (locals : ∀ scope var, localScope? record = some scope →
      record.node.kind = .variableDeclaration → record.node.flag "stateVariable" = false →
      record.contract.resolver.declared record.node = .ok var →
      property scope var.id (localAssignment var record.log.stack.length)) :
    Everywhere property after := by
  rcases registerLocal_cases registered with rfl | ⟨scope, var, found, kind, flag, declared, rfl⟩
  · exact everywhere
  · refine ⟨?_, everywhere.saved⟩
    intro other id assignment bound
    rw [Scopes.binding?_bind] at bound
    split at bound
    · rename_i here
      obtain ⟨rfl, rfl⟩ := here
      cases bound
      exact locals scope var found kind flag declared
    · exact everywhere.bound other id assignment bound

theorem Everywhere.enterFunction (everywhere : Everywhere property state) {after : Reduction}
    {record : Record} {function : Node}
    (entered : state.enterFunction record function = .ok after)
    (globals : ∀ scope var global, record.contract.globalAt? scope var = some global →
      property scope var global)
    (parameters : ∀ declaration ∈ record.contract.ast.signature function, ∀ var position,
      record.contract.resolver.declared declaration = .ok var →
      property function.id var.id (localAssignment (withName var position) position)) :
    Everywhere property after := by
  have bound := everywhere.bindGlobals globals
  obtain ⟨scopes, binds, made⟩ := bind_eq_ok.mp entered
  cases made
  constructor
  · intro scope var assignment found
    rcases bindDeclarations_binding? binds scope var with same |
      ⟨rfl, declaration, member, declared, position, known, rfl, made⟩
    · have found : _ = some assignment := found
      rw [same, Scopes.binding?_clear] at found
      split at found
      · cases found
      · exact bound.bound scope var assignment found
    · have found : _ = some assignment := found
      rw [made] at found
      cases found
      exact parameters declaration member declared position known
  · intro frame member entry inside var assignment found
    rcases List.mem_cons.mp member with rfl | member
    · obtain ⟨_, same⟩ := Scopes.mem_pick inside
      rw [same] at found
      exact bound.bound entry.1 var assignment found
    · exact bound.saved frame member entry inside var assignment found

end

end Reduction

end SolTrace
