import SolTrace.Ast.Node
import Std.Data.ExtTreeMap
/-!
Syntax trees. The nodes of all documents of a compilation are kept by number, with the parent of
each, and the roots in the order in which they came in.
-/
set_option autoImplicit false

namespace SolTrace

/-- Each node is kept under its own number. -/
def Ast.Keyed (nodes : Std.ExtTreeMap NodeId Node) : Prop :=
  ∀ (id : NodeId) (node : Node), nodes[id]? = some node → node.id = id

structure Ast where
  nodes : Std.ExtTreeMap NodeId Node
  parents : Std.ExtTreeMap NodeId NodeId
  roots : List NodeId
  /-- How many nodes have been numbered here because their document gave no number. -/
  numbered : Nat
  keyed : Ast.Keyed nodes

/-- Whether a value of a document is a node. -/
def Json.isNode (json : Json) : Bool :=
  ((json.get? "nodeType").bind Json.string?).isSome

namespace Ast

theorem keyed_insert {nodes : Std.ExtTreeMap NodeId Node} (keyed : Keyed nodes) (node : Node) :
    Keyed (nodes.insert node.id node) := by
  intro id found
  rw [Std.ExtTreeMap.getElem?_insert]
  split
  · rename_i same
    rintro ⟨⟩
    exact Std.LawfulEqCmp.eq_of_compare same
  · exact keyed id found

def empty : Ast := ⟨∅, ∅, [], 0, by simp [Keyed]⟩

instance : Inhabited Ast := ⟨empty⟩

/-- The number of a node: its own, or the next negative one. -/
def number (numbered : Nat) (json : Json) : NodeId × Nat :=
  match (json.get? "id").bind Json.int64? with
  | some id => (id, numbered)
  | none => (-(numbered + 1 : Int), numbered + 1)

def numberAll : Nat → List Json → List NodeId × Nat
  | numbered, [] => ([], numbered)
  | numbered, json :: rest =>
      let first := number numbered json
      let others := numberAll first.2 rest
      (first.1 :: others.1, others.2)

/-- The nodes that a field holds: the value itself, or items of an array. -/
def fieldNodes : Json → List Json
  | .array items => items.filter Json.isNode
  | json => if json.isNode then [json] else []

/-- The fields that hold nodes, with the numbers of those nodes. -/
def numberFields : Nat → List (String × Json) → List (String × List NodeId) × Nat
  | numbered, [] => ([], numbered)
  | numbered, (key, value) :: rest =>
      match fieldNodes value with
      | [] => numberFields numbered rest
      | nodes =>
          let first := numberAll numbered nodes
          let others := numberFields first.2 rest
          ((key, first.1) :: others.1, others.2)

def isAttribute (member : String × Json) : Bool :=
  (fieldNodes member.2).isEmpty && ["nodeType", "src", "id"].all (· != member.1)

def textMember (members : List (String × Json)) (key : String) : String :=
  ((members.lookup key).bind Json.string?).getD ""

/-- The node with the given number and members. -/
def nodeOf (id : NodeId) (members : List (String × Json)) (children : List (String × List NodeId)) :
    Node where
  id
  tag := textMember members "nodeType"
  src := textMember members "src"
  attributes := members.filter isAttribute
  children

/-- Keeps a node under its number. -/
def put (ast : Ast) (node : Node) : Ast :=
  { ast with
    nodes := ast.nodes.insert node.id node
    keyed := keyed_insert ast.keyed node }

/-- Adds one node below `parent`, and numbers the nodes below it. -/
def addNode (ast : Ast) (id : NodeId) (parent : Option NodeId) (members : List (String × Json)) :
    List NodeId × Ast :=
  let fields := numberFields ast.numbered members
  let node := nodeOf id members fields.1
  (node.childIds,
    { ast.put node with
      parents := parent.elim ast.parents (ast.parents.insert id)
      numbered := fields.2 })

mutual

/-- Adds the tree of a node under the first of the given numbers; any other value adds nothing.
The numbers that are left are returned with the trees. -/
def addTree : Json → Option NodeId → List NodeId × Ast → List NodeId × Ast
  | .object members, parent, (id :: ids, ast) =>
      if Json.isNode (.object members) then
        (ids, (addMembers members id (addNode ast id parent members)).2)
      else (id :: ids, ast)
  | _, _, state => state

def addMembers : List (String × Json) → NodeId → List NodeId × Ast → List NodeId × Ast
  | [], _, state => state
  | (_, .array items) :: rest, parent, state =>
      addMembers rest parent (addItems items parent state)
  | (_, value) :: rest, parent, state => addMembers rest parent (addTree value (some parent) state)

def addItems : List Json → NodeId → List NodeId × Ast → List NodeId × Ast
  | [], _, state => state
  | item :: rest, parent, state => addItems rest parent (addTree item (some parent) state)

end

/-- Adds a document; the number of its root, and the tree with it. -/
def insert (ast : Ast) (json : Json) : Except Error (NodeId × Ast) :=
  if json.isNode then
    let root := number ast.numbered json
    let ast := { ast with roots := ast.roots ++ [root.1], numbered := root.2 }
    .ok (root.1, (addTree json none ([root.1], ast)).2)
  else .error (.ast .rootIsNoNode)

def get? (ast : Ast) (id : NodeId) : Option Node :=
  ast.nodes[id]?

theorem get?_put (ast : Ast) (node : Node) (id : NodeId) :
    (ast.put node).get? id = if node.id = id then some node else ast.get? id := by
  simp [put, get?, Std.ExtTreeMap.getElem?_insert]

def node (ast : Ast) (id : NodeId) : Except Error Node :=
  match ast.get? id with
  | some node => .ok node
  | none => .error (.nodeNotFound id)

def parent? (ast : Ast) (id : NodeId) : Option NodeId :=
  ast.parents[id]?

/-- A node and what stands above it, innermost first, at most `depth` of them. -/
def ancestorsWithin (ast : Ast) : Nat → NodeId → List NodeId
  | 0, _ => []
  | depth + 1, id => id :: (ast.parent? id).elim [] (ast.ancestorsWithin depth)

/-- A node and all that stands above it, innermost first. -/
def ancestors (ast : Ast) (id : NodeId) : List NodeId :=
  ast.ancestorsWithin (ast.parents.size + 1) id

/-- The nodes of a subtree down to `depth` levels, each before the nodes below it. -/
def walkWithin (ast : Ast) : Nat → NodeId → List Node
  | 0, _ => []
  | depth + 1, id =>
      match ast.get? id with
      | none => []
      | some node => node :: node.childIds.flatMap (ast.walkWithin depth)

/-- The nodes of a subtree in document order. -/
def walk (ast : Ast) (id : NodeId) : List Node :=
  ast.walkWithin ast.nodes.size id

theorem get?_of_mem_walkWithin (ast : Ast) (depth : Nat) (id : NodeId) (node : Node)
    (reached : node ∈ ast.walkWithin depth id) : ast.get? node.id = some node := by
  induction depth generalizing id with
  | zero => simp [walkWithin] at reached
  | succ depth ih =>
      cases found : ast.get? id with
      | none => simp [walkWithin, found] at reached
      | some top =>
          simp only [walkWithin, found, List.mem_cons, List.mem_flatMap] at reached
          rcases reached with rfl | ⟨child, _, below⟩
          · rw [ast.keyed id node found, found]
          · exact ih child below

/-- A walk meets nodes of the tree only. -/
theorem get?_of_mem_walk (ast : Ast) (id : NodeId) (node : Node) (reached : node ∈ ast.walk id) :
    ast.get? node.id = some node :=
  ast.get?_of_mem_walkWithin ast.nodes.size id node reached

/-- The nodes of a kind in a subtree. -/
def find (ast : Ast) (id : NodeId) (kind : NodeKind) : List Node :=
  (ast.walk id).filter fun node => node.kind == kind

/-- The innermost node of a kind around a node, which may be the node itself. -/
def enclosing? (ast : Ast) (id : NodeId) (kind : NodeKind) : Option Node :=
  ((ast.ancestors id).filterMap ast.get?).find? fun node => node.kind == kind

theorem enclosing?_self (ast : Ast) {id : NodeId} {node : Node} (found : ast.get? id = some node) :
    ast.enclosing? id node.kind = some node := by
  simp [enclosing?, ancestors, ancestorsWithin, found]

theorem get?_of_enclosing? (ast : Ast) {id : NodeId} {kind : NodeKind} {node : Node}
    (found : ast.enclosing? id kind = some node) : ast.get? node.id = some node := by
  obtain ⟨other, _, lookup⟩ := List.mem_filterMap.mp (List.mem_of_find?_eq_some found)
  rw [ast.keyed other node lookup]
  exact lookup

/-- The declarations in a parameter list. -/
def parameters (ast : Ast) : Option NodeId → List Node
  | none => []
  | some list => ast.find list .variableDeclaration

/-- The declarations of a function's parameters and return values. -/
def signature (ast : Ast) (function : Node) : List Node :=
  ast.parameters (function.child? "parameters") ++
    ast.parameters (function.child? "returnParameters")

theorem get?_of_mem_signature (ast : Ast) {function declaration : Node}
    (listed : declaration ∈ ast.signature function) :
    ast.get? declaration.id = some declaration ∧ declaration.kind = .variableDeclaration := by
  have found : ∀ list, declaration ∈ ast.parameters list →
      ast.get? declaration.id = some declaration ∧ declaration.kind = .variableDeclaration := by
    intro list member
    cases list with
    | none => cases member
    | some list =>
        obtain ⟨walked, kind⟩ := List.mem_filter.mp member
        exact ⟨ast.get?_of_mem_walk list declaration walked, eq_of_beq kind⟩
  rcases List.mem_append.mp listed with member | member <;> exact found _ member

end Ast

end SolTrace
