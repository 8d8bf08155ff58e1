import Mathlib.Data.List.Nodup
import Mathlib.Logic.Relation
import SolTrace.Proofs.Ast.Links
/-!
Walks through an arena. The bound on the depth of a walk never cuts it short: the nodes above the
one that a walk has come to are distinct, so there are fewer of them than nodes. A walk therefore
meets what its start refers to, directly or not, and it meets each node before all that is below.
-/
set_option autoImplicit false

namespace SolTrace

namespace Ast

/-! ### The depth of a walk -/

theorem length_le_size {ast : Ast} {ids : List NodeId} (distinct : ids.Nodup)
    (kept : ∀ id ∈ ids, (ast.get? id).isSome = true) : ids.length ≤ ast.nodes.size := by
  rw [← Std.ExtTreeMap.length_keys]
  refine distinct.length_le_of_subset fun id member => ?_
  rw [Std.ExtTreeMap.mem_keys, ← Std.ExtTreeMap.isSome_getElem?_iff_mem]
  exact kept id member

/-- Distinct nodes that all stand higher than a number. -/
structure Above (ast : Ast) (height : NodeId → Nat) (above : List NodeId) (id : NodeId) : Prop where
  distinct : above.Nodup
  kept : ∀ other ∈ above, (ast.get? other).isSome = true
  higher : ∀ other ∈ above, height id < height other

variable {ast : Ast} {height : NodeId → Nat}

theorem Above.nil (id : NodeId) : Above ast height [] id :=
  ⟨List.nodup_nil, fun _ member => (List.not_mem_nil member).elim,
    fun _ member => (List.not_mem_nil member).elim⟩

theorem Above.child {above : List NodeId} {id child : NodeId} (higher : Above ast height above id)
    (kept : (ast.get? id).isSome = true) (lower : height child < height id) :
    Above ast height (id :: above) child where
  distinct :=
    List.nodup_cons.mpr ⟨fun member => Nat.lt_irrefl _ (higher.higher id member), higher.distinct⟩
  kept := List.forall_mem_cons.mpr ⟨kept, higher.kept⟩
  higher := List.forall_mem_cons.mpr
    ⟨lower, fun other member => Nat.lt_trans lower (higher.higher other member)⟩

/-- One more level changes nothing, if `depth` levels and the nodes above make up all nodes. -/
theorem walkWithin_succ
    (falls : ∀ parent child, ast.Child parent child → height child < height parent)
    (depth : Nat) {id : NodeId} {above : List NodeId} (higher : Above ast height above id)
    (enough : ast.nodes.size ≤ depth + above.length) :
    ast.walkWithin (depth + 1) id = ast.walkWithin depth id := by
  induction depth generalizing id above with
  | zero =>
      cases found : ast.get? id with
      | none => simp only [walkWithin, found]
      | some node =>
          -- All nodes are above this one, which is a node itself.
          have more : (id :: above).Nodup := List.nodup_cons.mpr
            ⟨fun member => Nat.lt_irrefl _ (higher.higher id member), higher.distinct⟩
          have kept : (ast.get? id).isSome = true := by rw [found]; rfl
          have bound := length_le_size more (List.forall_mem_cons.mpr ⟨kept, higher.kept⟩)
          rw [List.length_cons] at bound
          omega
  | succ depth ih =>
      rw [walkWithin, walkWithin]
      cases found : ast.get? id with
      | none => rfl
      | some node =>
          refine congrArg (node :: ·) (List.flatMap_congr fun child member => ?_)
          have kept : (ast.get? id).isSome = true := by rw [found]; rfl
          refine ih (higher.child kept (falls id child ⟨node, found, member⟩)) ?_
          rw [List.length_cons]
          omega

theorem walk_of_get?_none {id : NodeId} (found : ast.get? id = none) : ast.walk id = [] := by
  rw [walk]
  cases ast.nodes.size with
  | zero => rfl
  | succ depth => simp only [walkWithin, found]

/-- A walk meets its start and then all that the start refers to, one after the other. -/
theorem Built.walk_of_get? (built : ast.Built) {id : NodeId} {node : Node}
    (found : ast.get? id = some node) : ast.walk id = node :: node.childIds.flatMap ast.walk := by
  obtain ⟨height, linked⟩ := built.linked
  have deeper := walkWithin_succ (fun parent child link => (linked parent child link).2)
    ast.nodes.size (Above.nil id) (Nat.le_refl _)
  rw [walk, ← deeper, walkWithin, found]
  rfl

/-! ### What a walk meets -/

/-- A walk meets the nodes that references lead to from its start, and no others. -/
theorem Built.mem_walk (built : ast.Built) {id : NodeId} {node : Node} :
    node ∈ ast.walk id ↔
      ast.get? node.id = some node ∧ Relation.ReflTransGen ast.Child id node.id := by
  constructor
  · intro met
    refine ⟨ast.get?_of_mem_walk id node met, ?_⟩
    induction id using built.induction with
    | step id ih =>
        cases found : ast.get? id with
        | none =>
            rw [walk_of_get?_none found] at met
            cases met
        | some top =>
            rw [built.walk_of_get? found, List.mem_cons, List.mem_flatMap] at met
            rcases met with rfl | ⟨child, member, below⟩
            · rw [ast.keyed id node found]
            · have link : ast.Child id child := ⟨top, found, member⟩
              exact .head link (ih child link below)
  · rintro ⟨kept, path⟩
    induction path using Relation.ReflTransGen.head_induction_on with
    | refl =>
        rw [built.walk_of_get? kept]
        exact List.mem_cons_self
    | head link _ below =>
        obtain ⟨top, found, member⟩ := link
        rw [built.walk_of_get? found]
        exact List.mem_cons_of_mem _ (List.mem_flatMap.mpr ⟨_, member, below⟩)

/-- A walk from a node that a walk meets stays within that walk. -/
theorem Built.mem_walk_trans (built : ast.Built) {id : NodeId} {between node : Node}
    (upper : between ∈ ast.walk id) (lower : node ∈ ast.walk between.id) : node ∈ ast.walk id := by
  obtain ⟨kept, path⟩ := built.mem_walk.mp lower
  exact built.mem_walk.mpr ⟨kept, (built.mem_walk.mp upper).2.trans path⟩

/-- `lower` stands below `node`, directly or not. -/
def Below (ast : Ast) (node lower : Node) : Prop :=
  ast.get? lower.id = some lower ∧ Relation.TransGen ast.Child node.id lower.id

/-- `lower` is `node`, or stands below it. -/
def Contains (ast : Ast) (node lower : Node) : Prop :=
  lower = node ∨ ast.Below node lower

theorem Built.mem_walk_iff_contains (built : ast.Built) {node lower : Node}
    (kept : ast.get? node.id = some node) : lower ∈ ast.walk node.id ↔ ast.Contains node lower := by
  rw [built.mem_walk, Contains, Below, Relation.reflTransGen_iff_eq_or_transGen]
  constructor
  · rintro ⟨found, same | path⟩
    · rw [same, kept] at found
      exact .inl (Option.some.inj found).symm
    · exact .inr ⟨found, path⟩
  · rintro (rfl | ⟨found, path⟩)
    · exact ⟨kept, .inl rfl⟩
    · exact ⟨found, .inr path⟩

/-- Nodes in an order in which all that stands below a node comes after it, each time that it is
met. -/
def InOrder (ast : Ast) (nodes : List Node) : Prop :=
  ∀ before node after, nodes = before ++ node :: after →
    ∀ lower, ast.Below node lower → lower ∈ after

theorem InOrder.nil : ast.InOrder [] := fun _ _ _ split => by simp at split

theorem InOrder.cons {node : Node} {nodes : List Node} (inOrder : ast.InOrder nodes)
    (below : ∀ lower, ast.Below node lower → lower ∈ nodes) : ast.InOrder (node :: nodes) := by
  intro before other after split lower lies
  cases before with
  | nil =>
      cases split
      exact below lower lies
  | cons first before =>
      cases split
      exact inOrder before other after rfl lower lies

theorem InOrder.append {nodes others : List Node} (inOrder : ast.InOrder nodes)
    (otherwise : ast.InOrder others) : ast.InOrder (nodes ++ others) := by
  intro before node after split lower lies
  rcases List.append_eq_append_iff.mp split with ⟨middle, rfl, rest⟩ | ⟨middle, rfl, rest⟩
  · exact otherwise middle node after rest lower lies
  · cases middle with
    | nil => exact otherwise [] node after rest.symm lower lies
    | cons first middle =>
        cases rest
        exact List.mem_append_left _ (inOrder before node middle rfl lower lies)

theorem InOrder.flatMap {ids : List NodeId} {nodes : NodeId → List Node}
    (inOrder : ∀ id ∈ ids, ast.InOrder (nodes id)) : ast.InOrder (ids.flatMap nodes) := by
  induction ids with
  | nil => exact .nil
  | cons id ids ih =>
      rw [List.flatMap_cons]
      exact (inOrder id List.mem_cons_self).append
        (ih fun other member => inOrder other (List.mem_cons_of_mem _ member))

theorem Built.inOrder_walk (built : ast.Built) (id : NodeId) : ast.InOrder (ast.walk id) := by
  induction id using built.induction with
  | step id ih =>
      cases found : ast.get? id with
      | none =>
          rw [walk_of_get?_none found]
          exact .nil
      | some top =>
          rw [built.walk_of_get? found]
          refine .cons (.flatMap fun child member => ih child ⟨top, found, member⟩) ?_
          rintro lower ⟨kept, path⟩
          obtain ⟨child, ⟨same, again, member⟩, onwards⟩ := Relation.TransGen.head'_iff.mp path
          rw [ast.keyed id top found, found] at again
          cases again
          exact List.mem_flatMap.mpr ⟨child, member, built.mem_walk.mpr ⟨kept, onwards⟩⟩

end Ast

end SolTrace
