import SolTrace.Ast.Basic
/-!
Documents as trees of nodes. The nodes right below a node are those in its fields, in document
order; all else in a document is skipped when its tree is added.
-/
set_option autoImplicit false

namespace SolTrace

namespace Json

/-- The members of an object. -/
def members (json : Json) : List (String × Json) :=
  json.members?.getD []

/-- The nodes right below a node, in document order. -/
def children (json : Json) : List Json :=
  json.members.flatMap fun member => Ast.fieldNodes member.2

/-- The number that a document gives a node. -/
def nodeId? (json : Json) : Option NodeId :=
  (json.get? "id").bind Json.int64?

theorem eq_object_of_isNode {json : Json} (node : json.isNode = true) :
    json = .object json.members := by
  cases json <;> first | rfl | cases node

theorem isNode_of_mem_fieldNodes {value node : Json} (member : node ∈ Ast.fieldNodes value) :
    node.isNode = true := by
  unfold Ast.fieldNodes at member
  split at member
  · exact (List.mem_filter.mp member).2
  · split at member
    · next isNode => exact List.mem_singleton.mp member ▸ isNode
    · cases member

theorem isNode_of_mem_children {json child : Json} (member : child ∈ json.children) :
    child.isNode = true := by
  obtain ⟨field, -, inside⟩ := List.mem_flatMap.mp member
  exact isNode_of_mem_fieldNodes inside

theorem sizeOf_le_of_mem_fieldNodes {value node : Json} (member : node ∈ Ast.fieldNodes value) :
    sizeOf node ≤ sizeOf value := by
  unfold Ast.fieldNodes at member
  split at member
  · next items =>
      have smaller := List.sizeOf_lt_of_mem (List.mem_filter.mp member).1
      simp only [Json.array.sizeOf_spec]
      omega
  · split at member
    · exact Nat.le_of_eq (congrArg sizeOf (List.mem_singleton.mp member))
    · cases member

theorem sizeOf_lt_of_mem_children {json child : Json} (member : child ∈ json.children) :
    sizeOf child < sizeOf json := by
  cases json with
  | object members =>
      obtain ⟨⟨key, value⟩, within, inside⟩ := List.mem_flatMap.mp member
      have small := sizeOf_le_of_mem_fieldNodes inside
      have smaller : sizeOf (key, value) < sizeOf members := List.sizeOf_lt_of_mem within
      simp only [Prod.mk.sizeOf_spec] at smaller
      simp only [Json.object.sizeOf_spec]
      simp only at small
      omega
  | _ => cases member

/-- Induction over documents: what holds of the nodes right below a node holds of the node. -/
@[elab_as_elim]
theorem nodeInduction {motive : Json → Prop}
    (node : ∀ json : Json, (∀ child ∈ json.children, motive child) → motive json)
    (json : Json) : motive json := by
  induction size : sizeOf json using Nat.strongRecOn generalizing json with
  | ind _ ih =>
      subst size
      exact node json fun child member => ih _ (sizeOf_lt_of_mem_children member) child rfl

end Json

namespace Ast

/-! ### Adding the tree of a node -/

theorem addTree_of_not_isNode {json : Json} (noNode : json.isNode = false) (parent : Option NodeId)
    (state : List NodeId × Ast) : addTree json parent state = state := by
  cases json with
  | object members =>
      obtain ⟨ids, ast⟩ := state
      cases ids with
      | nil => rfl
      | cons id ids => simp only [addTree, noNode, Bool.false_eq_true, if_false]
  | _ => rfl

/-- Adds the trees of nodes below a parent, each under the first number that is left. -/
def addEach (parent : Option NodeId) (nodes : List Json) (state : List NodeId × Ast) :
    List NodeId × Ast :=
  nodes.foldl (fun state json => addTree json parent state) state

theorem addEach_append (parent : Option NodeId) (nodes others : List Json)
    (state : List NodeId × Ast) :
    addEach parent (nodes ++ others) state = addEach parent others (addEach parent nodes state) :=
  List.foldl_append

theorem addItems_eq (items : List Json) (parent : NodeId) (state : List NodeId × Ast) :
    addItems items parent state = addEach (some parent) (items.filter Json.isNode) state := by
  induction items generalizing state with
  | nil => rfl
  | cons item items ih =>
      rw [addItems, ih]
      cases node : item.isNode with
      | true => rw [List.filter_cons_of_pos node]; rfl
      | false =>
          rw [List.filter_cons_of_neg (by simp [node]), addTree_of_not_isNode node]

theorem addTree_eq_addEach {value : Json} (single : ∀ items, value ≠ .array items)
    (parent : Option NodeId) (state : List NodeId × Ast) :
    addTree value parent state = addEach parent (fieldNodes value) state := by
  have nodes : fieldNodes value = if value.isNode then [value] else [] := by
    cases value with
    | array items => exact absurd rfl (single items)
    | _ => rfl
  rw [nodes]
  cases node : value.isNode with
  | true => rfl
  | false => exact addTree_of_not_isNode node parent state

theorem addMembers_eq (members : List (String × Json)) (parent : NodeId)
    (state : List NodeId × Ast) :
    addMembers members parent state =
      addEach (some parent) (members.flatMap fun member => fieldNodes member.2) state := by
  induction members generalizing state with
  | nil => rfl
  | cons member members ih =>
      obtain ⟨key, value⟩ := member
      rw [List.flatMap_cons, addEach_append]
      by_cases several : ∃ items, value = .array items
      · obtain ⟨items, rfl⟩ := several
        rw [addMembers, ih, addItems_eq]
        rfl
      · have single : ∀ items, value ≠ .array items := fun items same => several ⟨items, same⟩
        rw [addMembers, ih, addTree_eq_addEach single]
        exact single

/-! ### Numbers -/

theorem numberAll_append (numbered : Nat) (nodes others : List Json) :
    numberAll numbered (nodes ++ others) =
      ((numberAll numbered nodes).1 ++ (numberAll (numberAll numbered nodes).2 others).1,
        (numberAll (numberAll numbered nodes).2 others).2) := by
  induction nodes generalizing numbered with
  | nil => rfl
  | cons json nodes ih => simp only [List.cons_append, numberAll, ih]

theorem numberAll_length (numbered : Nat) (nodes : List Json) :
    (numberAll numbered nodes).1.length = nodes.length := by
  induction nodes generalizing numbered with
  | nil => rfl
  | cons json nodes ih => simp only [numberAll, List.length_cons, ih]

/-- The nodes in the fields of a node are numbered one after the other. -/
theorem numberFields_eq (numbered : Nat) (members : List (String × Json)) :
    ((numberFields numbered members).1.flatMap Prod.snd, (numberFields numbered members).2) =
      numberAll numbered (members.flatMap fun member => fieldNodes member.2) := by
  induction members generalizing numbered with
  | nil => rfl
  | cons member members ih =>
      obtain ⟨key, value⟩ := member
      rw [List.flatMap_cons, numberAll_append, ← ih, numberFields]
      cases fieldNodes value <;> rfl

/-- The node that a document describes, if it is kept under `id` and `numbered` nodes have been
numbered before the nodes below it. -/
def described (json : Json) (id : NodeId) (numbered : Nat) : Node :=
  nodeOf id json.members (numberFields numbered json.members).1

theorem described_childIds (json : Json) (id : NodeId) (numbered : Nat) :
    (described json id numbered).childIds = (numberAll numbered json.children).1 :=
  congrArg Prod.fst (numberFields_eq numbered json.members)

/-- Keeps the node of a document, and numbers the nodes right below it. -/
def keep (ast : Ast) (json : Json) (id : NodeId) (parent : Option NodeId) : Ast :=
  (addNode ast id parent json.members).2

theorem addNode_eq (ast : Ast) (json : Json) (id : NodeId) (parent : Option NodeId) :
    addNode ast id parent json.members =
      ((numberAll ast.numbered json.children).1, ast.keep json id parent) :=
  Prod.ext (described_childIds json id ast.numbered) rfl

/-- A node is kept under the first number, and then the trees below it are added. -/
theorem addTree_eq {json : Json} (node : json.isNode = true) (parent : Option NodeId)
    (id : NodeId) (ids : List NodeId) (ast : Ast) :
    addTree json parent (id :: ids, ast) =
      (ids, (addEach (some id) json.children
        ((numberAll ast.numbered json.children).1, ast.keep json id parent)).2) := by
  have members := json.eq_object_of_isNode node
  rw [members] at node
  rw [members, addTree, if_pos node, addMembers_eq, ← members, addNode_eq]
  rfl

theorem keep_get? (ast : Ast) (json : Json) (id : NodeId) (parent : Option NodeId)
    (other : NodeId) :
    (ast.keep json id parent).get? other =
      if id = other then some (described json id ast.numbered) else ast.get? other :=
  get?_put ast (described json id ast.numbered) other

theorem keep_parent? (ast : Ast) (json : Json) (id : NodeId) (parent : Option NodeId)
    (other : NodeId) :
    (ast.keep json id parent).parent? other =
      if id = other then parent <|> ast.parent? other else ast.parent? other := by
  cases parent with
  | none =>
      have same : (ast.keep json id none).parent? other = ast.parent? other := rfl
      rw [same]
      split <;> rfl
  | some parent =>
      have inserted : (ast.keep json id (some parent)).parent? other =
          (ast.parents.insert id parent)[other]? := rfl
      rw [inserted, Std.ExtTreeMap.getElem?_insert]
      simp only [Std.LawfulEqCmp.compare_eq_iff_eq]
      rfl

theorem keep_numbered (ast : Ast) (json : Json) (id : NodeId) (parent : Option NodeId) :
    (ast.keep json id parent).numbered = (numberAll ast.numbered json.children).2 :=
  congrArg Prod.snd (numberFields_eq ast.numbered json.members)

end Ast

end SolTrace
