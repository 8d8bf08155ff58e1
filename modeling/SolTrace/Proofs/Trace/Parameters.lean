import SolTrace.Proofs.Ast.Walks
import SolTrace.Proofs.Trace.Events
/-!
Parameters and return values on the stack. The entry of a function binds the declarations that a
walk through its parameter lists meets, the last one to the word on top of the stack. A function
type has parameter lists of its own, and the declarations in them are met as well: they are bound to
words that belong to parameters, and what is declared before them to words further down.
-/
set_option autoImplicit false

namespace SolTrace

/-! ### Parameter lists -/

namespace Ast

/-- The declarations that stand in a declaration, in the function types of its type. -/
def inner (ast : Ast) (declaration : Node) : List Node :=
  (declaration.childIds.flatMap ast.walk).filter fun node => node.kind == .variableDeclaration

/-- Declarations, each with those in it behind it. -/
def withInner (ast : Ast) (declared : List Node) : List Node :=
  declared.flatMap fun declaration => declaration :: ast.inner declaration

/-- Whether a list of parameters consists of the given declarations. -/
def Lists (ast : Ast) (list : Option NodeId) (declared : List Node) : Prop :=
  ∃ id top, list = some id ∧ ast.get? id = some top ∧ top.kind = .parameterList ∧
    top.childIds = declared.map Node.id ∧ ∀ declaration ∈ declared,
      ast.get? declaration.id = some declaration ∧ declaration.kind = .variableDeclaration

/-- Whether a function has the given parameters and return values. -/
structure Declares (ast : Ast) (function : Node) (parameters returns : List Node) : Prop where
  parameters : ast.Lists (function.child? "parameters") parameters
  returns : ast.Lists (function.child? "returnParameters") returns

variable {ast : Ast}

theorem withInner_append (declared others : List Node) :
    ast.withInner (declared ++ others) = ast.withInner declared ++ ast.withInner others :=
  List.flatMap_append

theorem withInner_cons (declaration : Node) (declared : List Node) :
    ast.withInner (declaration :: declared) =
      declaration :: (ast.inner declaration ++ ast.withInner declared) :=
  List.flatMap_cons

theorem length_withInner (declared : List Node) :
    (ast.withInner declared).length = declared.length + (declared.flatMap ast.inner).length := by
  induction declared with
  | nil => rfl
  | cons declaration declared ih =>
      rw [withInner_cons, List.flatMap_cons, List.length_cons, List.length_append, ih,
        List.length_cons, List.length_append]
      omega

theorem withInner_eq_self {declared : List Node}
    (none : ∀ declaration ∈ declared, ast.inner declaration = []) :
    ast.withInner declared = declared :=
  calc ast.withInner declared
      = declared.flatMap fun declaration => [declaration] :=
        List.flatMap_congr fun declaration member => by rw [none declaration member]
    _ = declared := List.flatMap_singleton' declared

/-- A declaration is met before those in it. -/
theorem Built.find_declaration (built : ast.Built) {declaration : Node}
    (kept : ast.get? declaration.id = some declaration)
    (kind : declaration.kind = .variableDeclaration) :
    ast.find declaration.id .variableDeclaration = declaration :: ast.inner declaration := by
  rw [find, built.walk_of_get? kept, List.filter_cons_of_pos (by simp [kind])]
  rfl

theorem Built.parameters_eq (built : ast.Built) {list : Option NodeId} {declared : List Node}
    (lists : ast.Lists list declared) :
    ast.parameters list = ast.withInner declared := by
  obtain ⟨id, top, rfl, found, kind, children, declarations⟩ := lists
  rw [parameters, find, built.walk_of_get? found, List.filter_cons_of_neg (by simp [kind]),
    children, List.flatMap_map, List.filter_flatMap]
  refine List.flatMap_congr fun declaration member => ?_
  obtain ⟨kept, kind⟩ := declarations declaration member
  exact built.find_declaration kept kind

theorem Built.signature_eq (built : ast.Built) {function : Node} {parameters returns : List Node}
    (declares : ast.Declares function parameters returns) :
    ast.signature function = ast.withInner (parameters ++ returns) := by
  rw [signature, built.parameters_eq declares.parameters, built.parameters_eq declares.returns,
    withInner_append]

end Ast

/-! ### Positions -/

namespace Reduction

theorem withName_location (var : Variable) (position : Nat) :
    (withName var position).location = var.location := by
  unfold withName
  split <;> rfl

/-- A variable that is bound to a word is bound to no other one. -/
theorem localAssignment_position {var : Variable} {position other : Nat}
    (same : localAssignment (withName var position) position =
      localAssignment (withName var other) other) : position = other := by
  have located := congrArg Assignment.location same
  simp only [localAssignment, withName_location] at located
  split at located
  · exact Location.memory.inj located
  · exact Location.stack.inj located

/-- The last declaration is on top of the stack, the others are below it in their order. -/
theorem mem_declarations {record : Record} {function declaration : Node} {position : Nat} :
    (declaration, position) ∈ declarations record function ↔
      ∃ index, (record.contract.ast.signature function)[index]? = some declaration ∧
        position + (record.contract.ast.signature function).length =
          index + record.log.stack.length := by
  unfold declarations
  generalize record.contract.ast.signature function = listed
  generalize record.log.stack.length = height
  rw [List.mem_iff_getElem?]
  simp only [List.getElem?_zip_eq_some]
  constructor
  · intro ⟨back, found, word⟩
    obtain ⟨below, -⟩ := List.getElem?_eq_some_iff.mp found
    obtain ⟨within, -⟩ := List.getElem?_eq_some_iff.mp word
    rw [List.length_reverse] at below within
    rw [List.length_range] at within
    rw [List.getElem?_reverse below] at found
    rw [List.getElem?_reverse (by rwa [List.length_range]), List.length_range,
      List.getElem?_range (by omega), Option.some.injEq] at word
    exact ⟨_, found, by omega⟩
  · intro ⟨index, found, counted⟩
    obtain ⟨within, -⟩ := List.getElem?_eq_some_iff.mp found
    refine ⟨listed.length - 1 - index, ?_, ?_⟩
    · rw [List.getElem?_reverse (by omega), ← found]
      congr 1
      omega
    · rw [List.getElem?_reverse (by rw [List.length_range]; omega), List.length_range,
        List.getElem?_range (by omega), Option.some.injEq]
      omega

theorem index_unique {declared : List Node} (distinct : (declared.map Node.id).Nodup)
    {index other : Nat} {declaration node : Node} (found : declared[index]? = some declaration)
    (found' : declared[other]? = some node) (same : declaration.id = node.id) : index = other := by
  have number (index : Nat) : (declared.map Node.id)[index]? = declared[index]?.map Node.id :=
    List.getElem?_map
  have within : index < (declared.map Node.id).length := by
    rw [List.length_map]
    exact (List.getElem?_eq_some_iff.mp found).1
  apply (List.getElem?_inj within distinct).mp
  rw [number, number, found, found', Option.map_some, Option.map_some, same]

section

variable {record : Record} {function : Node}

/-- Declarations of different numbers have different words. -/
theorem declarations_unique
    (distinct : ((record.contract.ast.signature function).map Node.id).Nodup)
    {entry other : Node × Nat} (listed : entry ∈ declarations record function)
    (listed' : other ∈ declarations record function) (same : entry.1.id = other.1.id) :
    entry = other := by
  obtain ⟨index, found, counted⟩ := mem_declarations.mp listed
  obtain ⟨index', found', counted'⟩ := mem_declarations.mp listed'
  have equal := index_unique distinct found found' same
  subst equal
  rw [found, Option.some.injEq] at found'
  exact Prod.ext found' (by omega)

/-- A parameter or return value is where its declaration has a word. -/
theorem parameter?_eq_some
    (distinct : ((record.contract.ast.signature function).map Node.id).Nodup) {id : NodeId}
    {assignment : Assignment} :
    parameter? record function id = some assignment ↔
      ∃ entry ∈ declarations record function, ∃ var,
        record.contract.resolver.declared entry.1 = .ok var ∧ entry.1.id = id ∧
          assignment = localAssignment (withName var entry.2) entry.2 := by
  have bound (entry : Node × Nat) (assignment : Assignment) :
      (((record.contract.resolver.declared entry.1).toOption.filter fun declared =>
        declared.id == id).map fun declared =>
          localAssignment (withName declared entry.2) entry.2) = some assignment ↔
        ∃ var, record.contract.resolver.declared entry.1 = .ok var ∧ entry.1.id = id ∧
          assignment = localAssignment (withName var entry.2) entry.2 := by
    cases made : record.contract.resolver.declared entry.1 with
    | error error => simp [Except.toOption]
    | ok var =>
        rw [← (declared_id made).1]
        by_cases same : var.id = id
        · simp [Except.toOption, Option.filter_some, same, eq_comm]
        · simp [Except.toOption, Option.filter_some, same]
  unfold parameter?
  constructor
  · intro found
    obtain ⟨entry, listed, here⟩ := List.exists_of_findSome?_eq_some found
    exact ⟨entry, List.mem_reverse.mp listed, (bound entry assignment).mp here⟩
  · rintro ⟨entry, listed, here⟩
    cases first : (declarations record function).reverse.findSome? _ with
    | none =>
        have none := List.findSome?_eq_none_iff.mp first entry (List.mem_reverse.mpr listed)
        rw [(bound entry assignment).mpr here] at none
        cases none
    | some other =>
        obtain ⟨entry', listed', there⟩ := List.exists_of_findSome?_eq_some first
        obtain ⟨var, made, number, -⟩ := (bound entry' other).mp there
        have number' := here.choose_spec.2.1
        have equal := declarations_unique distinct (List.mem_reverse.mp listed') listed
          (number.trans number'.symm)
        rw [← there, equal]
        exact (bound entry assignment).mpr here

end

/-- Whether the variables that are bound in a function's scope are those of the given declarations,
each at its place on top of the stack, the last one at the top. -/
def BoundInOrder (record : Record) (function : Node) (declared : List Node) (scopes : Scopes) :
    Prop :=
  ∀ id assignment, scopes.binding? function.id id = some assignment ↔
    ∃ index declaration var position, declared[index]? = some declaration ∧
      position + declared.length = index + record.log.stack.length ∧
      record.contract.resolver.declared declaration = .ok var ∧ declaration.id = id ∧
      assignment = localAssignment (withName var position) position

/-- The entry of a function binds all declarations that its parameter lists hold. -/
theorem enterFunction_boundInOrder {state after : Reduction} {record : Record} {function : Node}
    (known : record.contract.ast.get? function.id = some function)
    (distinct : ((record.contract.ast.signature function).map Node.id).Nodup)
    (entered : state.enterFunction record function = .ok after) :
    BoundInOrder record function (record.contract.ast.signature function) after.scopes := by
  intro id assignment
  obtain ⟨frame, _, _, _, nodes, _, binds⟩ := enterFunction_cases entered
  rw [bindDeclarations_parameter? binds, if_pos rfl, Scopes.binding?_clear, nodes,
    if_pos (mem_functionNodes known), Option.or_none, parameter?_eq_some distinct]
  constructor
  · intro ⟨⟨declaration, position⟩, listed, var, made, number, same⟩
    obtain ⟨index, found, counted⟩ := mem_declarations.mp listed
    exact ⟨index, declaration, var, position, found, counted, made, number, same⟩
  · intro ⟨index, declaration, var, position, found, counted, made, number, same⟩
    exact ⟨⟨declaration, position⟩, mem_declarations.mpr ⟨index, found, counted⟩, var, made,
      number, same⟩

variable {record : Record} {function : Node} {scopes : Scopes}

/-- A declaration with just the given ones behind it is bound to the word that many below the
top. -/
theorem BoundInOrder.bound {declared : List Node}
    (ordered : BoundInOrder record function declared scopes) {before behind : List Node}
    {declaration : Node} (split : declared = before ++ declaration :: behind) {var : Variable}
    (made : record.contract.resolver.declared declaration = .ok var) {position : Nat}
    (word : position + 1 + behind.length = record.log.stack.length) :
    scopes.binding? function.id declaration.id =
      some (localAssignment (withName var position) position) := by
  have found : declared[before.length]? = some declaration := by
    simp [split]
  have size := congrArg List.length split
  rw [List.length_append, List.length_cons] at size
  exact (ordered _ _).mpr
    ⟨before.length, declaration, var, position, found, by omega, made, rfl, rfl⟩

/-- A declaration that has no word is not bound. -/
theorem BoundInOrder.unbound {declared : List Node}
    (ordered : BoundInOrder record function declared scopes)
    (distinct : (declared.map Node.id).Nodup) {before behind : List Node} {declaration : Node}
    (split : declared = before ++ declaration :: behind)
    (short : record.log.stack.length ≤ behind.length) :
    scopes.binding? function.id declaration.id = none := by
  apply Option.eq_none_iff_forall_ne_some.mpr
  intro assignment bound
  obtain ⟨index, other, _, position, found', counted, -, same, -⟩ := (ordered _ _).mp bound
  have found : declared[before.length]? = some declaration := by
    simp [split]
  have equal := index_unique distinct found' found same
  have size := congrArg List.length split
  rw [List.length_append, List.length_cons] at size
  omega

/-- Variables that are bound in the order of two lists have as many declarations behind them in the
one as in the other. -/
theorem BoundInOrder.length_eq {declared others : List Node}
    (ordered : BoundInOrder record function declared scopes)
    (ordered' : BoundInOrder record function others scopes)
    (distinct : (declared.map Node.id).Nodup) {before behind before' behind' : List Node}
    {declaration : Node} (split : declared = before ++ declaration :: behind)
    (split' : others = before' ++ declaration :: behind')
    (room : behind'.length < record.log.stack.length) {var : Variable}
    (made : record.contract.resolver.declared declaration = .ok var) :
    behind.length = behind'.length := by
  have word {count : Nat} (below : count < record.log.stack.length) :
      record.log.stack.length - 1 - count + 1 + count = record.log.stack.length := by
    omega
  have there := ordered'.bound split' made (word room)
  by_cases fits : behind.length < record.log.stack.length
  · have here := ordered.bound split made (word fits)
    have equal := localAssignment_position (Option.some.inj (here.symm.trans there))
    omega
  · rw [ordered.unbound distinct split (by omega)] at there
    cases there

end Reduction

/-! ### What the entry of a function binds -/

open Reduction in
/-- The entry of a function binds its parameters and return values, and all declarations in their
types, in the order in which they stand, the last one to the word on top of the stack. Each
parameter is as many words below its own one as declarations stand in its type and in the types
behind it. All are in place, and nothing else is bound, just if there are none. -/
theorem parameters_bound (state : Reduction) {record : Record} {function : Node}
    {parameters returns : List Node} (built : record.contract.ast.Built)
    (known : record.contract.ast.get? function.id = some function)
    (declares : record.contract.ast.Declares function parameters returns)
    (distinct : ((record.contract.ast.signature function).map Node.id).Nodup)
    (resolvable : ∀ declaration ∈ record.contract.ast.signature function,
      ∃ var, record.contract.resolver.declared declaration = .ok var)
    (room : parameters.length + returns.length ≤ record.log.stack.length) :
    let inner := record.contract.ast.inner
    let declared := parameters ++ returns
    let height := record.log.stack.length
    ∃ after, state.enterFunction record function = .ok after ∧
      BoundInOrder record function (record.contract.ast.withInner declared) after.scopes ∧
      (∀ before declaration behind var, declared = before ++ declaration :: behind →
        record.contract.resolver.declared declaration = .ok var →
          let above := behind.length + ((declaration :: behind).flatMap inner).length
          after.scopes.binding? function.id declaration.id =
            if above < height then
              some (localAssignment (withName var (height - 1 - above)) (height - 1 - above))
            else none) ∧
      (BoundInOrder record function declared after.scopes ↔
        ∀ declaration ∈ declared, inner declaration = []) := by
  intro inner declared height
  have whole := built.signature_eq declares
  obtain ⟨after, entered⟩ := enterFunction_ok state resolvable
  have ordered := enterFunction_boundInOrder known distinct entered
  rw [whole] at ordered distinct resolvable
  have split {before behind : List Node} {declaration : Node}
      (split : declared = before ++ declaration :: behind) :
      record.contract.ast.withInner declared = record.contract.ast.withInner before ++
        declaration :: (inner declaration ++ record.contract.ast.withInner behind) := by
    rw [split, Ast.withInner_append, Ast.withInner_cons]
  have size (declaration : Node) (behind : List Node) :
      (inner declaration ++ record.contract.ast.withInner behind).length =
        behind.length + ((declaration :: behind).flatMap inner).length := by
    rw [List.length_append, Ast.length_withInner, List.flatMap_cons, List.length_append]
    exact Nat.add_left_comm _ _ _
  refine ⟨after, entered, ordered, ?_, ?_⟩
  · intro before declaration behind var whole made above
    have counted := size declaration behind
    split
    · next fits => exact ordered.bound (split whole) made (by omega)
    · next short => exact ordered.unbound distinct (split whole) (by omega)
  · constructor
    · intro inPlace declaration member
      obtain ⟨before, behind, whole⟩ := List.append_of_mem member
      obtain ⟨var, made⟩ := resolvable declaration (List.mem_flatMap.mpr
        ⟨declaration, member, List.mem_cons_self⟩)
      have fits : behind.length < height := by
        have count := congrArg List.length whole
        rw [List.length_append, List.length_append, List.length_cons] at count
        omega
      have equal := ordered.length_eq inPlace distinct (split whole) whole fits made
      rw [size, List.flatMap_cons, List.length_append] at equal
      exact List.eq_nil_of_length_eq_zero (by omega)
    · intro none
      rwa [Ast.withInner_eq_self none] at ordered

namespace Sample

/-- A node of a document. -/
def document (id tag : String) (fields : List (String × Json)) : Json :=
  .object ([("id", .number id), ("nodeType", .string tag)] ++ fields)

/-- A list of parameters with types. -/
def parameterList (id : String) (declarations : List Json) : Json :=
  document id "ParameterList" [("parameters", .array declarations)]

def declaration (id name : String) (type : Json) : Json :=
  document id "VariableDeclaration" [("name", .string name), ("typeName", type)]

def uint (id : String) : Json :=
  document id "ElementaryTypeName" [("name", .string "uint256")]

/-- The function `apply(function(uint256) internal callback, uint256 amount) internal`. -/
def apply : Json :=
  document "1" "FunctionDefinition" [("name", .string "apply"),
    ("parameters", parameterList "2" [
      declaration "3" "callback" (document "4" "FunctionTypeName" [
        ("visibility", .string "internal"),
        ("parameterTypes", parameterList "5" [declaration "6" "" (uint "7")]),
        ("returnParameterTypes", parameterList "8" [])]),
      declaration "9" "amount" (uint "10")]),
    ("returnParameters", parameterList "11" [])]

def applying : Ast :=
  (Ast.addTree apply none ([1], { Ast.empty with roots := [1] })).2

theorem applying_built : applying.Built :=
  .insert .empty (@Ast.insert_eq Ast.empty apply rfl)

def applier : Contract :=
  { contract with
    ast := applying
    runtime := { creation with isCreation := false }
    creation_within := LinkedCode.within_of_unmapped _ _ rfl
    runtime_within := LinkedCode.within_of_unmapped _ _ rfl }

/-- The node of a number. -/
def applyNode (id : NodeId) : Node :=
  (applying.get? id).getD default

theorem get?_applyNode {id : NodeId} (kept : (applying.get? id).isSome = true) :
    applying.get? id = some (applyNode id) ∧ (applyNode id).id = id := by
  obtain ⟨node, found⟩ := Option.isSome_iff_exists.mp kept
  rw [applyNode, found, Option.getD_some, applying.keyed id node found]
  exact ⟨rfl, rfl⟩

theorem apply_kept {id : NodeId} (kept : (applying.get? id).isSome = true) :
    applying.get? (applyNode id).id = some (applyNode id) := by
  obtain ⟨found, same⟩ := get?_applyNode kept
  rw [same, found]

/-- The function is entered with a return address and its two arguments on the stack. -/
def applyEntry : Record :=
  recordOf applier 0 (log "JUMPDEST" 0 1 [0x40, 0x60, 7]) (mapped 0 1 .regular) (applyNode 1)

theorem apply_declares : applying.Declares (applyNode 1) [applyNode 3, applyNode 9] [] := by
  have kept : ∀ id ∈ [2, 3, 9, 11], (applying.get? id).isSome = true := by decide +kernel
  have fields : (applyNode 1).child? "parameters" = some 2 ∧
      (applyNode 1).child? "returnParameters" = some 11 := by decide +kernel
  have lists : (applyNode 2).kind = .parameterList ∧ (applyNode 11).kind = .parameterList ∧
      (applyNode 2).childIds = [applyNode 3, applyNode 9].map Node.id ∧
      (applyNode 11).childIds = [] := by decide +kernel
  have kinds : (applyNode 3).kind = .variableDeclaration ∧
      (applyNode 9).kind = .variableDeclaration := by decide +kernel
  have declared : ∀ node ∈ [applyNode 3, applyNode 9],
      applying.get? node.id = some node ∧ node.kind = .variableDeclaration :=
    List.forall_mem_cons.mpr ⟨⟨apply_kept (kept 3 (by simp)), kinds.1⟩,
      List.forall_mem_singleton.mpr ⟨apply_kept (kept 9 (by simp)), kinds.2⟩⟩
  exact {
    parameters := ⟨2, applyNode 2, fields.1, (get?_applyNode (kept 2 (by simp))).1, lists.1,
      lists.2.2.1, declared⟩
    returns := ⟨11, applyNode 11, fields.2, (get?_applyNode (kept 11 (by simp))).1, lists.2.1,
      lists.2.2.2, nofun⟩ }

end Sample

open Reduction Sample in
/-- The callback is not in its place: its type has a parameter as well, which is bound behind it. -/
theorem parameters_bound_callback :
    ∃ after, bound.enterFunction applyEntry (applyNode 1) = .ok after ∧
      ¬ BoundInOrder applyEntry (applyNode 1) [applyNode 3, applyNode 9] after.scopes := by
  have known : applying.get? (applyNode 1).id = some (applyNode 1) :=
    apply_kept (by decide +kernel)
  have distinct : ((applying.signature (applyNode 1)).map Node.id).Nodup := by decide +kernel
  have resolved : ∀ declaration ∈ applying.signature (applyNode 1),
      (applier.resolver.declared declaration).toOption.isSome = true := by decide +kernel
  have resolvable : ∀ declaration ∈ applying.signature (applyNode 1),
      ∃ var, applier.resolver.declared declaration = .ok var := by
    intro declaration listed
    have some := resolved declaration listed
    cases made : applier.resolver.declared declaration with
    | ok var => exact ⟨var, rfl⟩
    | error error =>
        rw [made] at some
        cases some
  have inner : applying.inner (applyNode 3) ≠ [] := by
    have one : (applying.inner (applyNode 3)).length = 1 := by decide +kernel
    intro none
    rw [none] at one
    cases one
  obtain ⟨after, entered, -, -, inPlace⟩ := @parameters_bound bound applyEntry (applyNode 1)
    [applyNode 3, applyNode 9] [] applying_built known apply_declares distinct resolvable
    (by decide)
  exact ⟨after, entered, fun all => inner (inPlace.mp all (applyNode 3) List.mem_cons_self)⟩

end SolTrace
