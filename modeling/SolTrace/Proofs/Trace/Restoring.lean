import SolTrace.Proofs.Trace.Globals
/-!
Calls and bindings: what the entry of a function sets aside, its exit brings back. Whatever the
function declares and calls in between, the bindings are the same afterwards, but for those of state
variables.
-/
set_option autoImplicit false

namespace SolTrace

/-! ### Setting aside and bringing back -/

namespace Scopes

theorem mem_pick_iff {scopes : Scopes} {ids : List NodeId} {id : NodeId} {bindings : Bindings} :
    (id, bindings) ∈ scopes.pick ids ↔ id ∈ ids ∧ scopes[id]? = some bindings := by
  simp only [pick, List.mem_filterMap, Option.map_eq_some_iff, Prod.mk.injEq]
  constructor
  · rintro ⟨other, inside, kept, found, rfl, rfl⟩
    exact ⟨inside, found⟩
  · rintro ⟨inside, found⟩
    exact ⟨id, inside, bindings, found, rfl, rfl⟩

/-- Of the scopes that were set aside, those that held bindings hold them again. -/
theorem getElem?_restore_pick (base scopes : Scopes) (ids : List NodeId) (scope : NodeId) :
    (base.restore (scopes.pick ids))[scope]? =
      if scope ∈ ids then (scopes[scope]?).or base[scope]? else base[scope]? := by
  rcases getElem?_restore (scopes.pick ids) base scope with
    ⟨bindings, member, restored⟩ | ⟨others, restored⟩
  · obtain ⟨inside, found⟩ := mem_pick_iff.mp member
    rw [restored, if_pos inside, found]
    rfl
  · rw [restored]
    split
    · next inside =>
        cases found : scopes[scope]? with
        | none => rfl
        | some bindings => exact absurd rfl (others _ (mem_pick_iff.mpr ⟨inside, found⟩))
    · rfl

/-- The bindings that are set aside are those that come back. -/
theorem binding?_restore_clear (scopes known : Scopes) (ids : List NodeId) (scope var : NodeId) :
    ((scopes.clear ids).restore (known.pick ids)).binding? scope var =
      if scope ∈ ids then known.binding? scope var else scopes.binding? scope var := by
  simp only [binding?, bindings]
  rw [getElem?_restore_pick, getElem?_clear]
  by_cases inside : scope ∈ ids
  · rw [if_pos inside, if_pos inside, if_pos inside, Option.or_none]
  · rw [if_neg inside, if_neg inside, if_neg inside]

end Scopes

/-! ### Functions -/

/-- A definition is the first node of its own tree. -/
theorem Ast.mem_walk_self (ast : Ast) {id : NodeId} {node : Node}
    (found : ast.get? id = some node) : node ∈ ast.walk id := by
  have filled : ast.nodes.size ≠ 0 := by
    intro empty
    have none : ast.nodes = ∅ := Std.ExtTreeMap.eq_empty_iff_size_eq_zero.mpr empty
    rw [get?, none, Std.ExtTreeMap.getElem?_empty] at found
    cases found
  obtain ⟨depth, size⟩ := Nat.exists_eq_succ_of_ne_zero filled
  rw [walk, size, walkWithin, found]
  exact List.mem_cons_self

/-- The nodes of a function's definition. -/
def functionNodes (record : Record) (function : Node) : List NodeId :=
  (record.contract.ast.walk function.id).map Node.id

theorem mem_functionNodes {record : Record} {function : Node}
    (known : record.contract.ast.get? function.id = some function) :
    function.id ∈ functionNodes record function :=
  List.mem_map_of_mem (record.contract.ast.mem_walk_self known)

namespace Reduction

/-- The entry of a function puts a frame on the stack that holds what was bound in its definition,
and binds the parameters. -/
theorem enterFunction_cases {state after : Reduction} {record : Record} {function : Node}
    (entered : state.enterFunction record function = .ok after) :
    ∃ frame : Frame,
      after = { state.bindGlobals record with
        frames := frame :: state.frames, scopes := after.scopes } ∧
      frame.call = ⟨record.address, record.contract.name, function.functionName⟩ ∧
      frame.context = record.context ∧ frame.nodes = functionNodes record function ∧
      frame.shadowed = (state.bindGlobals record).scopes.pick frame.nodes ∧
      bindDeclarations record function ((state.bindGlobals record).scopes.clear frame.nodes) =
        .ok after.scopes := by
  obtain ⟨scopes, binds, made⟩ := bind_eq_ok.mp entered
  cases made
  refine ⟨⟨⟨record.address, record.contract.name, function.functionName⟩, record.context,
    functionNodes record function,
    (state.bindGlobals record).scopes.pick (functionNodes record function)⟩, ?_, rfl, rfl, rfl, rfl,
    binds⟩
  rw [← bindGlobals_frames state record]
  rfl

theorem enterFunction_ok (state : Reduction) {record : Record} {function : Node}
    (resolvable : ∀ declaration ∈ record.contract.ast.signature function,
      ∃ var, record.contract.resolver.declared declaration = .ok var) :
    ∃ after, state.enterFunction record function = .ok after := by
  obtain ⟨scopes, binds⟩ := bindDeclarations_ok record function
    ((state.bindGlobals record).scopes.clear (functionNodes record function)) resolvable
  exact ⟨_, bind_eq_ok.mpr ⟨scopes, binds, rfl⟩⟩

theorem bindGlobals_cases (state : Reduction) (record : Record) (scope var : NodeId) :
    (state.bindGlobals record).scopes.binding? scope var = state.scopes.binding? scope var ∨
      ∃ global, record.contract.globalAt? scope var = some global ∧
        (state.bindGlobals record).scopes.binding? scope var = some global := by
  unfold bindGlobals
  split
  · exact .inl rfl
  · rw [binding?_globals]
    cases found : record.contract.globals.reverse.find? _ with
    | none => exact .inl rfl
    | some global => exact .inr ⟨global, found, rfl⟩

/-- An exit brings back what the entry has set aside, and leaves other scopes alone. -/
theorem leaveFunction_binding? {state : Reduction} {frame : Frame} {frames : List Frame}
    (active : state.frames = frame :: frames) {known : Scopes}
    (aside : frame.shadowed = known.pick frame.nodes) (scope var : NodeId) :
    state.leaveFunction.scopes.binding? scope var =
      if scope ∈ frame.nodes then known.binding? scope var
      else state.scopes.binding? scope var := by
  simp only [leaveFunction, active, aside]
  exact Scopes.binding?_restore_clear state.scopes known frame.nodes scope var

/-! ### Runs of a function -/

/-- Whether bindings outside of some scopes are the same, but for state variables of some
contracts. -/
def SameOutside (contracts : List Contract) (nodes : List NodeId) (before after : Scopes) : Prop :=
  ∀ scope var, scope ∉ nodes →
    after.binding? scope var = before.binding? scope var ∨
      ∃ contract ∈ contracts, ∃ global, contract.globalAt? scope var = some global ∧
        after.binding? scope var = some global

namespace SameOutside

variable {contracts : List Contract} {nodes : List NodeId} {before middle after : Scopes}

theorem refl (contracts : List Contract) (nodes : List NodeId) (scopes : Scopes) :
    SameOutside contracts nodes scopes scopes :=
  fun _ _ _ => .inl rfl

theorem trans (first : SameOutside contracts nodes before middle)
    (second : SameOutside contracts nodes middle after) :
    SameOutside contracts nodes before after := by
  intro scope var outside
  rcases second scope var outside with same | bound
  · rw [same]
    exact first scope var outside
  · exact .inr bound

theorem mono {fewer : List NodeId} (same : SameOutside contracts fewer before after)
    (among : fewer ⊆ nodes) : SameOutside contracts nodes before after :=
  fun scope var outside => same scope var fun inside => outside (among inside)

theorem bindings (same : SameOutside contracts [] before after) {scope : NodeId}
    (other : ∀ contract ∈ contracts, scope ∉ contract.globalScopes) :
    after.bindings scope = before.bindings scope := by
  apply Std.ExtTreeMap.ext_getElem?
  intro var
  rcases same scope var List.not_mem_nil with equal | ⟨contract, listed, global, bound, _⟩
  · exact equal
  · exact absurd (Contract.mem_globals_of_globalAt? bound).2.2 (other contract listed)

end SameOutside

/-- What a function with the given nodes does to the bindings before it is left: it declares
variables in its own scopes, and calls functions of some contracts, itself included, each of which
runs in the same way and is left. -/
inductive Runs (contracts : List Contract) : List NodeId → Reduction → Reduction → Prop
  | done {nodes : List NodeId} (state : Reduction) : Runs contracts nodes state state
  | declares {nodes : List NodeId} {state middle after : Reduction} {record : Record}
      (registered : state.registerLocal record = .ok middle)
      (own : ∀ scope, localScope? record = some scope → scope ∈ nodes)
      (rest : Runs contracts nodes middle after) : Runs contracts nodes state after
  | calls {nodes : List NodeId} {state inner last after : Reduction} {record : Record}
      {function : Node} (listed : record.contract ∈ contracts)
      (known : record.contract.ast.get? function.id = some function)
      (entered : state.enterFunction record function = .ok inner)
      (body : Runs contracts (functionNodes record function) inner last)
      (rest : Runs contracts nodes last.leaveFunction after) : Runs contracts nodes state after

section

variable {contracts : List Contract}

theorem registerLocal_sameOutside (contracts : List Contract) {state after : Reduction}
    {record : Record} {nodes : List NodeId}
    (registered : state.registerLocal record = .ok after)
    (own : ∀ scope, localScope? record = some scope → scope ∈ nodes) :
    after.frames = state.frames ∧ SameOutside contracts nodes state.scopes after.scopes := by
  rcases registerLocal_cases registered with rfl | ⟨scope, var, found, _, _, _, rfl⟩
  · exact ⟨rfl, SameOutside.refl contracts nodes _⟩
  · refine ⟨rfl, fun other id outside => .inl ?_⟩
    rw [Scopes.binding?_bind, if_neg]
    rintro ⟨rfl, _⟩
    exact outside (own _ found)

/-- Outside of a function's definition its entry binds state variables only. -/
theorem enterFunction_sameOutside {state inner : Reduction} {record : Record} {function : Node}
    (listed : record.contract ∈ contracts)
    (known : record.contract.ast.get? function.id = some function)
    (entered : state.enterFunction record function = .ok inner) :
    SameOutside contracts (functionNodes record function) state.scopes inner.scopes := by
  obtain ⟨frame, _, _, _, nodes, _, binds⟩ := enterFunction_cases entered
  intro scope var outside
  have same : inner.scopes.binding? scope var =
      (state.bindGlobals record).scopes.binding? scope var := by
    rcases bindDeclarations_binding? binds scope var with same | ⟨rfl, _⟩
    · rw [same, Scopes.binding?_clear, nodes, if_neg outside]
    · exact absurd (mem_functionNodes known) outside
  rcases bindGlobals_cases state record scope var with before | ⟨global, bound, found⟩
  · exact .inl (same.trans before)
  · exact .inr ⟨record.contract, listed, global, bound, same.trans found⟩

/-- The exit of a function that has kept the bindings outside of its definition restores those
inside of it. -/
theorem leaveFunction_restores {state inner last : Reduction} {record : Record} {function : Node}
    (listed : record.contract ∈ contracts)
    (known : record.contract.ast.get? function.id = some function)
    (entered : state.enterFunction record function = .ok inner)
    (frames : last.frames = inner.frames)
    (kept : SameOutside contracts (functionNodes record function) inner.scopes last.scopes) :
    last.leaveFunction.frames = state.frames ∧
      SameOutside contracts [] state.scopes last.leaveFunction.scopes := by
  obtain ⟨frame, made, _, _, nodes, aside, _⟩ := enterFunction_cases entered
  have active : last.frames = frame :: state.frames := by rw [frames, made]
  refine ⟨by rw [leaveFunction_frames, active, List.tail_cons], fun scope var _ => ?_⟩
  rw [leaveFunction_binding? active aside, nodes]
  split
  · rcases bindGlobals_cases state record scope var with same | ⟨global, bound, found⟩
    · exact .inl same
    · exact .inr ⟨record.contract, listed, global, bound, found⟩
  · next outside =>
      have before := enterFunction_sameOutside listed known entered
      exact before.trans kept scope var outside

/-- A function leaves the stack below it and the bindings outside of its definition alone. The
induction is on what it does: a call within it restores all bindings, as its body keeps those
outside of the callee's definition. -/
theorem Runs.kept {nodes : List NodeId} {state after : Reduction}
    (runs : Runs contracts nodes state after) :
    after.frames = state.frames ∧ SameOutside contracts nodes state.scopes after.scopes := by
  induction runs with
  | done state => exact ⟨rfl, SameOutside.refl contracts _ _⟩
  | declares registered own _ ih =>
      obtain ⟨frames, first⟩ := registerLocal_sameOutside contracts registered own
      exact ⟨ih.1.trans frames, first.trans ih.2⟩
  | calls listed known entered _ _ body rest =>
      obtain ⟨frames, restored⟩ := leaveFunction_restores listed known entered body.1 body.2
      exact ⟨rest.1.trans frames, (restored.mono (List.nil_subset _)).trans rest.2⟩

end

end Reduction

open Reduction in
/-- A call restores the bindings of its caller. From any state, a function that may be active
already is entered, declares variables in its own scopes, calls any functions that do the same, and
is left. Then the stack is as it was, and every variable is bound in every scope as it was, unless
it is a state variable of an entered contract; in scopes that hold no state variables the bindings
are the same altogether. -/
theorem calls_restore (contracts : List Contract) (state inner last : Reduction) (record : Record)
    (function : Node) (listed : record.contract ∈ contracts)
    (known : record.contract.ast.get? function.id = some function)
    (entered : state.enterFunction record function = .ok inner)
    (runs : Runs contracts (functionNodes record function) inner last) :
    last.leaveFunction.frames = state.frames ∧
      (∀ scope, (∀ contract ∈ contracts, scope ∉ contract.globalScopes) →
        last.leaveFunction.scopes.bindings scope = state.scopes.bindings scope) ∧
      ∀ scope var,
        last.leaveFunction.scopes.binding? scope var = state.scopes.binding? scope var ∨
          ∃ contract ∈ contracts, ∃ global, contract.globalAt? scope var = some global ∧
            last.leaveFunction.scopes.binding? scope var = some global := by
  obtain ⟨frames, kept⟩ := runs.kept
  obtain ⟨stack, restored⟩ := leaveFunction_restores listed known entered frames kept
  exact ⟨stack, fun scope other => restored.bindings other,
    fun scope var => restored scope var List.not_mem_nil⟩

namespace Sample

/-! A contract whose function has a parameter and a local variable. -/

/-- A node with a name and a scope. -/
def declarer (id : NodeId) (tag name scope : String) (children : List (String × List NodeId)) :
    Node where
  id
  tag
  src := ""
  attributes := [("name", .string name), ("scope", .number scope)]
  children

def spend : Node :=
  declarer 1 "FunctionDefinition" "spend" "10" [("parameters", [4]), ("body", [2])]

def amount : Node :=
  declarer 8 "VariableDeclaration" "amount" "1" [("typeName", [9])]

def change : Node :=
  declarer 5 "VariableDeclaration" "change" "2" [("typeName", [6])]

/-- The function, its block with a call and a declaration, and its parameter. -/
def spendingNodes : List Node :=
  [spend, node 2 "Block" [3, 5], node 3 "FunctionCall" [],
    declarer 4 "ParameterList" "" "1" [("parameters", [8])], change,
    declarer 6 "ElementaryTypeName" "uint256" "2" [], amount,
    declarer 9 "ElementaryTypeName" "uint256" "1" []]

def spending : Ast :=
  { spendingNodes.foldl Ast.put Ast.empty with
    parents := [(2, 1), (3, 2), (4, 1), (5, 2), (6, 5), (8, 4), (9, 8)].foldl
      (fun parents entry => parents.insert entry.1 entry.2) ∅ }

def spendingRuntime : LinkedCode :=
  { runtime with mapped := [mapped 0 1 .regular, mapped 1 5 .regular, mapped 2 3 .into,
      mapped 4 3 .regular] }

def spender : Contract :=
  { contract with
    ast := spending
    runtime := spendingRuntime
    creation_within := by simp [LinkedCode.Within, contract, creation]
    runtime_within := by
      intro mapped member
      simp only [spendingRuntime, List.mem_cons, List.not_mem_nil, or_false] at member
      rcases member with rfl | rfl | rfl | rfl <;> exact ⟨_, rfl⟩ }

def amountVar : Variable :=
  ⟨8, "amount", .stack, .elementary "uint256", 1, false, .mutable, none⟩

def changeVar : Variable :=
  ⟨5, "change", .stack, .elementary "uint256", 2, false, .mutable, none⟩

theorem amount_declared : spender.resolver.declared amount = .ok amountVar := rfl

theorem change_declared : spender.resolver.declared change = .ok changeVar := rfl

theorem spend_signature : spender.ast.signature spend = [amount] := rfl

/-- A record that enters the function, with some words on the stack. -/
def spendEntry (index : Nat) (stack : List Word) : Record :=
  recordOf spender index (log "JUMPDEST" 0 1 stack) (mapped 0 1 .regular) spend

def changeRecord (index : Nat) (stack : List Word) : Record :=
  recordOf spender index (log "SSTORE" 1 1 stack) (mapped 1 5 .regular) change

theorem spend_enters (state : Reduction) (index : Nat) (stack : List Word) :
    ∃ after, state.enterFunction (spendEntry index stack) spend = .ok after := by
  have resolvable : ∀ declaration ∈ spender.ast.signature spend,
      ∃ var, spender.resolver.declared declaration = .ok var := by
    rw [spend_signature]
    intro declaration listed
    rw [List.mem_singleton.mp listed]
    exact ⟨_, amount_declared⟩
  exact state.enterFunction_ok resolvable

theorem change_registers (state : Reduction) (index : Nat) (stack : List Word) :
    ∃ after, state.registerLocal (changeRecord index stack) = .ok after := by
  obtain ⟨scopes, registered⟩ := state.registerLocal_ok (changeRecord index stack)
    fun _ => ⟨_, change_declared⟩
  exact ⟨_, registered⟩

theorem change_scope (index : Nat) (stack : List Word) :
    Reduction.localScope? (changeRecord index stack) = some 2 := rfl

theorem spend_nodes (index : Nat) (stack : List Word) :
    functionNodes (spendEntry index stack) spend = [1, 4, 8, 9, 2, 3, 5, 6] := rfl

/-- Nothing is active, but the local variable is bound. -/
def bound : Reduction :=
  ⟨[], Scopes.bind ∅ 2 (Reduction.localAssignment changeVar 1), [], 0, [], none, #[]⟩

end Sample

open Reduction in
/-- The function declares its variable and calls itself, which declares it again. -/
theorem calls_restore_spend :
    ∃ inner last, Sample.bound.enterFunction (Sample.spendEntry 0 [7, 8]) Sample.spend = .ok inner ∧
      Runs [Sample.spender] (functionNodes (Sample.spendEntry 0 [7, 8]) Sample.spend) inner last ∧
      last.leaveFunction.scopes.binding? 2 5 =
        some (localAssignment Sample.changeVar 1) := by
  obtain ⟨inner, entered⟩ := Sample.spend_enters Sample.bound 0 [7, 8]
  obtain ⟨declared, registered⟩ := Sample.change_registers inner 1 [7, 8, 9]
  obtain ⟨callee, again⟩ := Sample.spend_enters declared 2 [7, 8, 9, 10]
  obtain ⟨last, deeper⟩ := Sample.change_registers callee 3 [7, 8, 9, 10, 11]
  have own (i j : Nat) (stack others : List Word) (scope : NodeId)
      (found : localScope? (Sample.changeRecord i stack) = some scope) :
      scope ∈ functionNodes (Sample.spendEntry j others) Sample.spend := by
    rw [Sample.change_scope, Option.some.injEq] at found
    rw [Sample.spend_nodes, ← found]
    decide
  have known : Sample.spender.ast.get? Sample.spend.id = some Sample.spend := rfl
  have listed : Sample.spender ∈ [Sample.spender] := List.mem_singleton_self _
  have runs : Runs [Sample.spender] (functionNodes (Sample.spendEntry 0 [7, 8]) Sample.spend) inner
      last.leaveFunction :=
    .declares registered (own _ _ _ _)
      (.calls listed known again (.declares deeper (own _ _ _ _) (.done last)) (.done _))
  have restored := (calls_restore [Sample.spender] Sample.bound inner last.leaveFunction
    (Sample.spendEntry 0 [7, 8]) Sample.spend listed known entered runs).2.1 2 (by
      intro contract member
      rw [List.mem_singleton.mp member]
      decide)
  refine ⟨inner, last.leaveFunction, entered, runs, ?_⟩
  rw [Scopes.binding?, restored, ← Scopes.binding?, Sample.bound, Scopes.binding?_bind]
  rfl

end SolTrace
