import SolTrace.Artifact
import SolTrace.Layout
import SolTrace.LinkedCode
import SolTrace.UserTypes
/-!
Contracts: the model of a compiled contract that a trace is read against.
-/
set_option autoImplicit false

namespace SolTrace

abbrev Sources := Std.ExtTreeMap String Source

structure Contract where
  name : String
  creation : LinkedCode
  runtime : LinkedCode
  /-- The node of the contract's definition. -/
  node : NodeId
  /-- The syntax trees of the compilation that the contract belongs to. -/
  ast : Ast
  /-- The structs and enums of the contract and its bases. -/
  userTypes : UserTypes
  /-- The structs and enums of the whole compilation. -/
  allUserTypes : UserTypes
  /-- Where the state variables are, those of base contracts first. -/
  globals : List Assignment
  /-- The storage slots of the state variables. -/
  slots : Nat
  /-- The scopes that nodes name themselves. -/
  scopes : Std.ExtTreeMap NodeId (List NodeId)
  abi : Option Json
  creation_within : creation.Within ast
  runtime_within : runtime.Within ast

namespace Contract

def code (contract : Contract) (isCreation : Bool) : LinkedCode :=
  if isCreation then contract.creation else contract.runtime

theorem code_within (contract : Contract) (isCreation : Bool) :
    (contract.code isCreation).Within contract.ast := by
  cases isCreation
  · exact contract.runtime_within
  · exact contract.creation_within

/-- What the types in the contract are resolved against. -/
def resolver (contract : Contract) : Resolver :=
  ⟨contract.ast, contract.allUserTypes, false⟩

/-- The syntax trees of the source files. Files without a tree add nothing. -/
def astOf (artifact : Artifact) : Except Error Ast :=
  artifact.sources.toList.foldlM (fun ast file =>
    match file.2.ast.get? "nodeType" with
    | none => .ok ast
    | some _ => do return (← ast.insert file.2.ast).2) Ast.empty

/-- The source files by the number that source maps give them. -/
def filesOf (artifact : Artifact) (sources : Sources) : Std.ExtTreeMap Int Source :=
  artifact.sources.toList.foldl (fun files file =>
    match sources[file.1]? with
    | none => files
    | some source => files.insert file.2.id source) ∅

/-- The nodes below all roots, tree by tree. -/
def allNodes (ast : Ast) : List Node :=
  ast.roots.flatMap ast.walk

/-- The node of each range; of nodes with one range the last one counts, which is the innermost. -/
def nodesByRange (ast : Ast) : Std.ExtTreeMap String NodeId :=
  (allNodes ast).foldl (fun nodes node => nodes.insert node.src node.id) ∅

/-- Whether the numbers that a map gives are those of nodes. -/
def Stored (ast : Ast) (nodes : Std.ExtTreeMap String NodeId) : Prop :=
  ∀ (range : String) (id : NodeId), nodes[range]? = some id → ∃ node, ast.get? id = some node

theorem nodesByRange_stored (ast : Ast) : Stored ast (nodesByRange ast) := by
  unfold nodesByRange
  refine List.foldlRecOn (motive := Stored ast) _ _ (by simp [Stored]) ?_
  intro nodes known node member range id found
  rw [Std.ExtTreeMap.getElem?_insert] at found
  split at found
  · obtain ⟨root, _, reached⟩ := List.mem_flatMap.mp member
    cases found
    exact ⟨node, ast.get?_of_mem_walk root node reached⟩
  · exact known range id found

/-- Links code against the nodes of a syntax tree. -/
def linkTo (ast : Ast) (map : String) (text : List UInt8) (files : Std.ExtTreeMap Int Source)
    (isCreation : Bool) : Except Error { code : LinkedCode // code.Within ast } :=
  match linked : LinkedCode.link map text files (nodesByRange ast) isCreation with
  | .error error => .error error
  | .ok code =>
      .ok ⟨code, fun mapped member =>
        let ⟨range, found⟩ := LinkedCode.link_node linked mapped member
        nodesByRange_stored ast range mapped.node found⟩

def scopesOf (ast : Ast) : Std.ExtTreeMap NodeId (List NodeId) :=
  (allNodes ast).foldl (fun scopes node =>
    if node.scopes.isEmpty then scopes else scopes.insert node.id node.scopes) ∅

/-- The state variables that a contract declares itself. -/
def stateVariables (resolver : Resolver) (contract : Node) : Except Error (List Variable) :=
  let declarations := (resolver.ast.find contract.id .variableDeclaration).filter fun node =>
    node.flag "stateVariable"
  (declarations.mergeSort fun a b => a.id ≤ b.id).mapM resolver.declared

/-- The names of the contracts that a contract inherits from, most basic first and itself last,
and the state variables of all of them. -/
def globalsOf (resolver : Resolver) (definitions : List Node) (contract : Node) :
    Except Error (List String × List Variable) :=
  (contract.ids "linearizedBaseContracts").reverse.foldlM (fun found id => do
    match definitions.find? fun node => node.id == id with
    | none => .error (.contractNotFound (toString id))
    | some base =>
        return (found.1 ++ [base.name], found.2 ++ (← stateVariables resolver base))) ([], [])

/-- Builds the model of an artifact's contract. -/
def ofArtifact (sources : Sources) (artifact : Artifact) : Except Error Contract := do
  let ast ← astOf artifact
  let files := filesOf artifact sources
  let definitions := ast.roots.flatMap fun root => ast.find root .contractDefinition
  match definitions.find? fun node => node.name == artifact.name with
  | none => .error (.contractNotFound artifact.name)
  | some contract =>
      let types ← UserTypes.ofRoots ast ast.roots
      let (bases, vars) ← globalsOf ⟨ast, types, false⟩ definitions contract
      let layout := Layout.pack vars
      let creation ← linkTo ast artifact.creationMap (Text.utf8 artifact.creationCode) files true
      let runtime ← linkTo ast artifact.runtimeMap (Text.utf8 artifact.runtimeCode) files false
      return {
        name := artifact.name
        creation := creation.val
        runtime := runtime.val
        node := contract.id
        ast
        userTypes := types.declaredIn bases
        allUserTypes := types
        globals := layout.assignments
        slots := layout.slots
        scopes := scopesOf ast
        abi := artifact.abi
        creation_within := creation.property
        runtime_within := runtime.property }

end Contract

namespace Sources

/-- The source files of all artifacts. Of files with one name the last one counts. -/
def ofArtifacts (artifacts : List Artifact) : Sources :=
  (artifacts.flatMap fun artifact => artifact.sources.toList).foldl
    (fun sources file => sources.insert file.1 (Source.ofText file.1 file.2.text)) ∅

end Sources

end SolTrace
