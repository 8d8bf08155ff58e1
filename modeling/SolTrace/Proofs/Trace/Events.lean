import SolTrace.Proofs.Trace.Restoring
import SolTrace.Proofs.Trace.StateVariables
/-!
Events: the replay of a trace as a sequence of events, latest first. A record may declare a
variable, and it takes the steps that it becomes. From the events alone follow the functions that
are active, with those of contexts that have been left until the next step drops them, and the
variables that an event binds.
-/
set_option autoImplicit false

namespace SolTrace

open Reduction

/-- What happens at a record: it is looked at for a declaration, or it takes a step. -/
inductive Event
  | declares (record : Record)
  | takes (record : Record) (kind : StepKind)

namespace Event

def perform (event : Event) (state : Reduction) : Except Error Reduction :=
  match event with
  | .declares record => state.registerLocal record
  | .takes record kind => replayStep record state kind

/-- The events of a record, in their order. -/
def ofEntry (entry : Record × List StepKind) : List Event :=
  .declares entry.1 :: entry.2.map (.takes entry.1)

end Event

/-- The events of a trace, latest first. -/
def Alignment.timeline (alignment : Alignment) : List Event :=
  ((Classification.ofRecords alignment.records.toList).flatMap Event.ofEntry).reverse

/-- The events lead to the state that the records are replayed to. -/
theorem foldrM_timeline (alignment : Alignment) (state : Reduction) :
    alignment.timeline.foldrM Event.perform state =
      (Classification.ofRecords alignment.records.toList).foldlM Reduction.replay state := by
  rw [Alignment.timeline, List.foldrM_reverse]
  generalize Classification.ofRecords alignment.records.toList = entries
  induction entries generalizing state with
  | nil => rfl
  | cons entry entries ih =>
      have here : (Event.ofEntry entry).foldlM (fun state event => event.perform state) state =
          state.replay entry := by
        simp only [Event.ofEntry, List.foldlM_cons, List.foldlM_map]
        rfl
      rw [List.flatMap_cons, List.foldlM_append, here, List.foldlM_cons]
      exact bind_congr ih

theorem reduce_events {registry : Registry} {inputs : TraceInputs} {steps : List Step}
    (reduced : reduce registry inputs = .ok steps) :
    ∃ alignment last, Alignment.ofInputs registry inputs = .ok alignment ∧
      alignment.timeline.foldrM Event.perform (Reduction.start inputs alignment) = .ok last ∧
      steps = last.steps.toList := by
  obtain ⟨alignment, aligned, rest⟩ := bind_eq_ok.mp reduced
  obtain ⟨last, replayed, made⟩ := bind_eq_ok.mp rest
  cases made
  exact ⟨alignment, last, aligned, (foldrM_timeline alignment _).trans replayed, rfl⟩

/-! ### Active functions -/

/-- An activation of a function. Its number is that of the events before its entry. -/
structure Invocation where
  number : Nat
  /-- The record that it is entered at. -/
  record : Record
  function : Node

namespace Invocation

def nodes (invocation : Invocation) : List NodeId :=
  functionNodes invocation.record invocation.function

def call (invocation : Invocation) : CallFrame :=
  ⟨invocation.record.address, invocation.record.contract.name, invocation.function.functionName⟩

/-- Whether the context of the activation has been left at a record. -/
def unwound (record : Record) (invocation : Invocation) : Bool :=
  !record.active.contains invocation.record.context

end Invocation

/-- The functions on the stack after some events, innermost first. Those of contexts that have been
left are still there until a step is taken. -/
def active : List Event → List Invocation
  | [] => []
  | .declares _ :: earlier => active earlier
  | .takes record kind :: earlier =>
      let live := (active earlier).dropWhile (Invocation.unwound record)
      match kind with
      | .functionIn =>
          match record.function? with
          | none => live
          | some function => ⟨earlier.length, record, function⟩ :: live
      | .functionOut =>
          if record.log.op = "RETURN" then
            live.dropWhile fun invocation => invocation.record.context == record.context
          else live.tail
      | _ => live

/-- The numbers of the activations whose definition has a scope, innermost first. -/
def owners (scope : NodeId) (stack : List Invocation) : List Nat :=
  (stack.filter fun invocation => invocation.nodes.contains scope).map Invocation.number

@[simp] theorem owners_nil (scope : NodeId) : owners scope [] = [] := rfl

theorem owners_append (scope : NodeId) (front back : List Invocation) :
    owners scope (front ++ back) = owners scope front ++ owners scope back := by
  simp [owners]

theorem owners_eq_nil {scope : NodeId} {stack : List Invocation} :
    owners scope stack = [] ↔ ∀ invocation ∈ stack, scope ∉ invocation.nodes := by
  simp [owners]

theorem owners_inside {scope : NodeId} {invocation : Invocation} (inside : scope ∈ invocation.nodes)
    (stack : List Invocation) :
    owners scope (invocation :: stack) = invocation.number :: owners scope stack := by
  simp [owners, inside]

theorem owners_outside {scope : NodeId} {invocation : Invocation}
    (outside : scope ∉ invocation.nodes) (stack : List Invocation) :
    owners scope (invocation :: stack) = owners scope stack := by
  simp [owners, outside]

/-- On the stack of some events, what stands from an activation on is the stack right after its
entry. -/
theorem active_from (past : List Event) :
    ∀ {front : List Invocation} {invocation : Invocation} {back : List Invocation},
      active past = front ++ invocation :: back →
      ∃ later event earlier, past = later ++ event :: earlier ∧
        earlier.length = invocation.number ∧ active (event :: earlier) = invocation :: back := by
  induction past with
  | nil =>
      intro front invocation back split
      simp [active] at split
  | cons event earlier ih =>
      intro front invocation back split
      have before {dropped front : List Invocation}
          (split : active earlier = dropped ++ (front ++ invocation :: back)) :
          ∃ later entry past, event :: earlier = later ++ entry :: past ∧
            past.length = invocation.number ∧ active (entry :: past) = invocation :: back := by
        rw [← List.append_assoc] at split
        obtain ⟨later, entry, past, rfl, number, stack⟩ := ih split
        exact ⟨event :: later, entry, past, rfl, number, stack⟩
      have suffix {stack front : List Invocation} (kept : stack <:+ active earlier)
          (split : stack = front ++ invocation :: back) :
          ∃ later entry past, event :: earlier = later ++ entry :: past ∧
            past.length = invocation.number ∧ active (entry :: past) = invocation :: back := by
        obtain ⟨dropped, whole⟩ := kept
        rw [split] at whole
        exact before whole.symm
      cases event with
      | declares record => exact suffix List.suffix_rfl split
      | takes record kind =>
          have live := List.dropWhile_suffix (l := active earlier) (Invocation.unwound record)
          cases kind with
          | jump => exact suffix live split
          | line => exact suffix live split
          | functionOut =>
              rw [active] at split
              split at split
              · exact suffix ((List.dropWhile_suffix _).trans live) split
              · exact suffix ((List.tail_suffix _).trans live) split
          | functionIn =>
              have entered := split
              rw [active] at split
              split at split
              · exact suffix live split
              · cases front with
                | nil =>
                    refine ⟨[], _, earlier, rfl, ?_, entered⟩
                    rw [← (List.cons.inj split).1]
                | cons first front => exact suffix live (List.cons.inj split).2

theorem active_number {past : List Event} {invocation : Invocation}
    (member : invocation ∈ active past) : invocation.number < past.length := by
  obtain ⟨front, back, split⟩ := List.append_of_mem member
  obtain ⟨later, event, earlier, rfl, number, _⟩ := active_from past split
  simp only [List.length_append, List.length_cons]
  omega

/-- An activation is told by its number, with all below it on the stack. -/
theorem active_eq {later past : List Event} {invocation other : Invocation}
    {front front' stack stack' : List Invocation}
    (first : active past = front ++ invocation :: stack)
    (second : active (later ++ past) = front' ++ other :: stack')
    (same : invocation.number = other.number) : invocation :: stack = other :: stack' := by
  obtain ⟨since, event, earlier, split, number, here⟩ := active_from past first
  obtain ⟨since', event', earlier', split', number', there⟩ := active_from _ second
  have whole : (later ++ since) ++ event :: earlier = since' ++ event' :: earlier' := by
    rw [← split', split, List.append_assoc]
  obtain ⟨-, tails⟩ := List.append_inj' whole (by simp; omega)
  rw [← here, ← there, tails]

/-! ### Bound variables -/

/-- The scope of the local variable that a record declares, and where the variable is. -/
def declaredLocal? (record : Record) : Option (NodeId × Assignment) :=
  if record.node.kind ≠ .variableDeclaration ∨ record.node.flag "stateVariable" then none
  else
    (localScope? record).bind fun scope =>
      (record.contract.resolver.declared record.node).toOption.map fun var =>
        (scope, localAssignment var record.log.stack.length)

/-- Where a parameter or return value of a function is that has the given number. -/
def parameter? (record : Record) (function : Node) (var : NodeId) : Option Assignment :=
  (declarations record function).reverse.findSome? fun entry =>
    ((record.contract.resolver.declared entry.1).toOption.filter fun declared =>
      declared.id == var).map fun declared =>
        localAssignment (withName declared entry.2) entry.2

/-- The local variable or parameter of a number that an event binds in a scope. -/
def Event.binds? (scope var : NodeId) : Event → Option Assignment
  | .declares record =>
      ((declaredLocal? record).filter fun declared =>
        declared.1 == scope && declared.2.var.id == var).map Prod.snd
  | .takes record .functionIn =>
      record.function?.bind fun function =>
        if function.id = scope then parameter? record function var else none
  | .takes _ _ => none

/-- What was bound first under a number in a scope while just the given activations had the scope in
their definitions. -/
def firstBound? (scope var : NodeId) (home : List Nat) : List Event → Option Assignment
  | [] => none
  | event :: earlier =>
      (firstBound? scope var home earlier).or
        (if owners scope (active (event :: earlier)) = home then event.binds? scope var else none)

/-- What was bound first was bound by one of the events. -/
theorem firstBound?_eq_some {scope var : NodeId} {home : List Nat} {past : List Event}
    {assignment : Assignment} (found : firstBound? scope var home past = some assignment) :
    ∃ later event earlier, past = later ++ event :: earlier ∧
      event.binds? scope var = some assignment ∧
      owners scope (active (event :: earlier)) = home ∧
      firstBound? scope var home earlier = none := by
  induction past with
  | nil => cases found
  | cons event earlier ih =>
      rw [firstBound?, Option.or_eq_some_iff] at found
      rcases found with found | ⟨none, found⟩
      · obtain ⟨later, bound, before, rfl, rest⟩ := ih found
        exact ⟨event :: later, bound, before, rfl, rest⟩
      · split at found
        · next same => exact ⟨[], event, earlier, rfl, found, same, none⟩
        · cases found

theorem firstBound?_eq_none {scope var : NodeId} {home : List Nat} {past : List Event}
    (never : ∀ later event earlier, past = later ++ event :: earlier →
      event.binds? scope var ≠ none → owners scope (active (event :: earlier)) ≠ home) :
    firstBound? scope var home past = none := by
  cases found : firstBound? scope var home past with
  | none => rfl
  | some assignment =>
      obtain ⟨later, event, earlier, split, binds, same, _⟩ := firstBound?_eq_some found
      exact absurd same (never later event earlier split (by simp [binds]))

/-- Nothing is bound during an activation before its entry. -/
theorem firstBound?_fresh {scope var : NodeId} {past : List Event} {number : Nat}
    (fresh : past.length ≤ number) (home : List Nat) :
    firstBound? scope var (number :: home) past = none := by
  apply firstBound?_eq_none
  intro later event earlier split _ same
  have listed : number ∈ owners scope (active (event :: earlier)) := same ▸ List.mem_cons_self
  obtain ⟨invocation, member, rfl⟩ := List.mem_map.mp listed
  have below := active_number (List.mem_filter.mp member).1
  rw [split, List.length_append] at fresh
  omega

/-- What was bound first stays the first. -/
theorem firstBound?_append {scope var : NodeId} {home : List Nat} {past : List Event}
    {assignment : Assignment} (found : firstBound? scope var home past = some assignment)
    (later : List Event) : firstBound? scope var home (later ++ past) = some assignment := by
  induction later with
  | nil => exact found
  | cons event later ih => rw [List.cons_append, firstBound?, ih, Option.some_or]

/-- What is bound first after some events is bound by a later one. -/
theorem firstBound?_later {scope var : NodeId} {home : List Nat} {past : List Event}
    {assignment : Assignment} (none : firstBound? scope var home past = none)
    {later : List Event} (found : firstBound? scope var home (later ++ past) = some assignment) :
    ∃ since event earlier, later = since ++ event :: earlier ∧
      event.binds? scope var = some assignment := by
  induction later with
  | nil => simp [none] at found
  | cons event later ih =>
      rw [List.cons_append, firstBound?, Option.or_eq_some_iff] at found
      rcases found with found | ⟨_, found⟩
      · obtain ⟨since, bound, earlier, rfl, binds⟩ := ih found
        exact ⟨event :: since, bound, earlier, rfl, binds⟩
      · split at found
        · exact ⟨[], event, later, rfl, found⟩
        · cases found

/-- A later event that binds under other activations changes nothing. -/
theorem firstBound?_cons {scope var : NodeId} {home : List Nat} {event : Event}
    {past : List Event}
    (other : owners scope (active (event :: past)) ≠ home ∨ event.binds? scope var = none) :
    firstBound? scope var home (event :: past) = firstBound? scope var home past := by
  rw [firstBound?]
  rcases other with other | none
  · rw [if_neg other, Option.or_none]
  · rw [none, ite_self, Option.or_none]

/-! ### What an event does to the bindings -/

theorem binds?_declares {record : Record} {home : NodeId} {assignment : Assignment}
    (declared : declaredLocal? record = some (home, assignment)) (scope var : NodeId) :
    (Event.declares record).binds? scope var =
      if home = scope ∧ assignment.var.id = var then some assignment else none := by
  simp only [Event.binds?, declared, Option.filter_some, Bool.and_eq_true, beq_iff_eq]
  split <;> rfl

theorem binds?_declares_none {record : Record} (other : declaredLocal? record = none)
    (scope var : NodeId) : (Event.declares record).binds? scope var = none := by
  simp only [Event.binds?, other, Option.filter_none, Option.map_none]

/-- A declaration binds its variable, unless it is bound. -/
theorem registerLocal_binding? {state after : Reduction} {record : Record}
    (registered : state.registerLocal record = .ok after) (scope var : NodeId) :
    after.scopes.binding? scope var =
      (state.scopes.binding? scope var).or ((Event.declares record).binds? scope var) := by
  unfold registerLocal at registered
  by_cases skipped : record.node.kind ≠ .variableDeclaration ∨ record.node.flag "stateVariable"
  · rw [if_pos skipped] at registered
    cases registered
    rw [binds?_declares_none (by rw [declaredLocal?, if_pos skipped]), Option.or_none]
  · rw [if_neg skipped] at registered
    split at registered
    · next none =>
        have missing : localScope? record = Option.none := none
        have outside : declaredLocal? record = Option.none := by
          rw [declaredLocal?, if_neg skipped, missing, Option.bind_none]
        cases registered
        rw [binds?_declares_none outside, Option.or_none]
    · next home found =>
        have found : localScope? record = some home := found
        have declares {var : Variable}
            (declared : record.contract.resolver.declared record.node = .ok var) :
            declaredLocal? record = some (home, localAssignment var record.log.stack.length) := by
          rw [declaredLocal?, if_neg skipped, found, declared]
          rfl
        split at registered
        · next known =>
            -- the variable is bound already, and no other one is declared
            cases registered
            cases declared : record.contract.resolver.declared record.node with
            | error error =>
                rw [binds?_declares_none (by
                  rw [declaredLocal?, if_neg skipped, found, declared]
                  rfl), Option.or_none]
            | ok result =>
                rw [binds?_declares (declares declared), localAssignment_var,
                  (declared_id declared).1]
                split
                · next here =>
                    obtain ⟨rfl, rfl⟩ := here
                    rw [Std.ExtTreeMap.contains_eq_isSome_getElem?] at known
                    obtain ⟨kept, bound⟩ := Option.isSome_iff_exists.mp known
                    rw [Scopes.binding?, bound, Option.some_or]
                · rw [Option.or_none]
        · next unknown =>
            obtain ⟨result, declared, made⟩ := bind_eq_ok.mp registered
            cases made
            rw [binds?_declares (declares declared), Scopes.binding?_bind, localAssignment_var]
            split
            · next here =>
                obtain ⟨rfl, rfl⟩ := here
                have free : state.scopes.binding? home result.id = none := by
                  rw [Bool.not_eq_true, Std.ExtTreeMap.contains_eq_isSome_getElem?,
                    Option.isSome_eq_false_iff, Option.isNone_iff_eq_none] at unknown
                  rw [Scopes.binding?, (declared_id declared).1, unknown]
                rw [free, Option.none_or]
            · rw [Option.or_none]

/-- Parameters are bound in the scope of their function; of declarations with one number the last
one counts. -/
theorem bindDeclarations_parameter? {record : Record} {function : Node} {scopes bound : Scopes}
    (binds : bindDeclarations record function scopes = .ok bound) (scope var : NodeId) :
    bound.binding? scope var =
      if function.id = scope then (parameter? record function var).or (scopes.binding? scope var)
      else scopes.binding? scope var := by
  unfold bindDeclarations at binds
  unfold parameter?
  generalize declarations record function = entries at binds
  induction entries generalizing scopes with
  | nil =>
      cases binds
      simp
  | cons entry entries ih =>
      obtain ⟨declaration, position⟩ := entry
      rw [List.foldlM_cons] at binds
      obtain ⟨first, made, rest⟩ := bind_eq_ok.mp binds
      obtain ⟨declared, known, equal⟩ := bind_eq_ok.mp made
      cases equal
      rw [ih rest, List.reverse_cons, List.findSome?_append, Scopes.binding?_bind]
      by_cases here : function.id = scope
      · by_cases same : declared.id = var
        · simp [here, same, known, Except.toOption, Option.filter_some]
        · simp [here, same, known, Except.toOption, Option.filter_some]
      · simp [here]

/-- The entry of a function leaves only its parameters bound in its definition. -/
theorem enterFunction_binding? {state after : Reduction} {record : Record} {function : Node}
    (known : record.function? = some function)
    (entered : state.enterFunction record function = .ok after) (scope var : NodeId) :
    after.scopes.binding? scope var =
      if scope ∈ functionNodes record function then
        (Event.takes record .functionIn).binds? scope var
      else (state.bindGlobals record).scopes.binding? scope var := by
  have own := mem_functionNodes (record.contract.ast.get?_of_enclosing? known)
  obtain ⟨frame, _, _, _, nodes, _, binds⟩ := enterFunction_cases entered
  rw [bindDeclarations_parameter? binds, Scopes.binding?_clear, nodes]
  simp only [Event.binds?, known, Option.bind_some]
  by_cases here : function.id = scope
  · rw [← here, if_pos rfl, if_pos own, if_pos own, if_pos rfl, Option.or_none]
  · rw [if_neg here, if_neg here]

/-- Only entries and declarations bind variables. -/
theorem binds?_quiet (record : Record) {kind : StepKind} (other : kind ≠ .functionIn)
    (scope var : NodeId) : (Event.takes record kind).binds? scope var = none := by
  cases kind with
  | functionIn => exact absurd rfl other
  | functionOut => rfl
  | jump => rfl
  | line => rfl

theorem binds?_outside {record : Record} {function : Node}
    (known : record.function? = some function) {scope : NodeId}
    (outside : scope ∉ functionNodes record function) (var : NodeId) :
    (Event.takes record .functionIn).binds? scope var = none := by
  have own := mem_functionNodes (record.contract.ast.get?_of_enclosing? known)
  simp only [Event.binds?, known, Option.bind_some]
  rw [if_neg]
  rintro rfl
  exact outside own

end SolTrace
