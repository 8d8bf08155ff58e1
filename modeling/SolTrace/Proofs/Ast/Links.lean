import Mathlib.Logic.Function.Basic
import SolTrace.Proofs.Ast.Documents
/-!
Links in an arena. Whatever documents are inserted, also ones that repeat numbers, a node refers
only to nodes that are kept, and following the references comes to an end: each reference leads to
a node that was kept later than the one it is in.
-/
set_option autoImplicit false

namespace SolTrace

namespace Ast

/-- An arena that documents were inserted into, one after the other. -/
inductive Built : Ast → Prop
  | empty : Built empty
  | insert {ast after : Ast} {json : Json} {root : NodeId} :
      Built ast → ast.insert json = .ok (root, after) → Built after

/-- The node kept under `parent` refers to `child`. -/
def Child (ast : Ast) (parent child : NodeId) : Prop :=
  ∃ node, ast.get? parent = some node ∧ child ∈ node.childIds

/-- An arena in which nodes were kept at certain times, and some numbers are still waiting for
their nodes. A reference leads to a number that is waiting, or to a node kept later. -/
def Ordered (ast : Ast) (waiting : List NodeId) : Prop :=
  ∃ (now : Nat) (kept : NodeId → Nat), (∀ id, kept id ≤ now) ∧
    ∀ parent child, ast.Child parent child →
      child ∈ waiting ∨ ((ast.get? child).isSome = true ∧ kept parent < kept child)

theorem ordered_empty : empty.Ordered [] := by
  refine ⟨0, fun _ => 0, fun _ => Nat.le_refl 0, ?_⟩
  rintro parent child ⟨node, found, -⟩
  simp [get?, empty] at found

/-- Keeping the node of a document takes its number from those that are waiting, and the numbers
of the nodes below it wait instead. -/
theorem Ordered.keep {ast : Ast} {id : NodeId} {waiting : List NodeId}
    (ordered : ast.Ordered (id :: waiting)) (json : Json) (parent : Option NodeId) :
    (ast.keep json id parent).Ordered
      ((numberAll ast.numbered json.children).1 ++ waiting) := by
  obtain ⟨now, kept, past, linked⟩ := ordered
  refine ⟨now + 1, Function.update kept id (now + 1), fun other => ?_, ?_⟩
  · by_cases same : other = id
    · subst same
      exact Nat.le_of_eq (Function.update_self other (now + 1) kept)
    · rw [Function.update_of_ne same]
      exact Nat.le_succ_of_le (past other)
  · rintro top child ⟨node, found, below⟩
    rw [keep_get?] at found
    by_cases newest : id = top
    · rw [if_pos newest, Option.some.injEq] at found
      rw [← found, described_childIds] at below
      exact .inl (List.mem_append_left _ below)
    · rw [if_neg newest] at found
      have earlier := past top
      by_cases same : child = id
      · refine .inr ⟨by rw [keep_get?, if_pos same.symm]; rfl, ?_⟩
        rw [same, Function.update_self, Function.update_of_ne (Ne.symm newest)]
        omega
      · rcases linked top child ⟨node, found, below⟩ with wait | ⟨there, later⟩
        · exact .inl (List.mem_append_right _ ((List.mem_cons.mp wait).resolve_left same))
        · refine .inr ⟨by rw [keep_get?, if_neg (Ne.symm same)]; exact there, ?_⟩
          rw [Function.update_of_ne same, Function.update_of_ne (Ne.symm newest)]
          exact later

/-! ### What is kept -/

/-- A node that stands below another one is kept, and so is the other one. -/
def ParentsKept (ast : Ast) : Prop :=
  ∀ id parent, ast.parent? id = some parent →
    (ast.get? id).isSome = true ∧ (ast.get? parent).isSome = true

theorem keep_kept {ast : Ast} {other : NodeId} (kept : (ast.get? other).isSome = true)
    (json : Json) (id : NodeId) (parent : Option NodeId) :
    ((ast.keep json id parent).get? other).isSome = true := by
  rw [keep_get?]
  split
  · rfl
  · exact kept

theorem ParentsKept.keep {ast : Ast} (before : ast.ParentsKept) (json : Json) (id : NodeId)
    {parent : Option NodeId} (above : ∀ top ∈ parent, (ast.get? top).isSome = true) :
    (ast.keep json id parent).ParentsKept := by
  intro other top stands
  rw [keep_parent?] at stands
  by_cases newest : id = other
  · refine ⟨by rw [keep_get?, if_pos newest]; rfl, keep_kept ?_ json id parent⟩
    rw [if_pos newest] at stands
    cases parent with
    | none => exact (before other top stands).2
    | some _ => exact above top stands
  · rw [if_neg newest] at stands
    obtain ⟨kept, keptAbove⟩ := before other top stands
    exact ⟨keep_kept kept json id parent, keep_kept keptAbove json id parent⟩

/-! ### A whole document -/

/-- What keeping one node below a kept one preserves, with the numbers that are waiting, adding a
tree does. -/
theorem addTree_preserves (invariant : List NodeId → Ast → Prop)
    (keeps : ∀ (json : Json) (id : NodeId) (parent : Option NodeId) (waiting : List NodeId)
      (ast : Ast), (∀ top ∈ parent, (ast.get? top).isSome = true) → invariant (id :: waiting) ast →
        invariant ((numberAll ast.numbered json.children).1 ++ waiting) (ast.keep json id parent))
    {json : Json} (node : json.isNode = true) {id : NodeId} {parent : Option NodeId} {ast : Ast}
    (above : ∀ top ∈ parent, (ast.get? top).isSome = true) (ids waiting : List NodeId)
    (before : invariant (id :: waiting) ast) :
    invariant waiting (addTree json parent (id :: ids, ast)).2 := by
  induction json using Json.nodeInduction generalizing id waiting ast parent ids invariant with
  | node json below =>
      rw [addTree_eq node]
      have nodes : ∀ child ∈ json.children, child.isNode = true :=
        fun child => Json.isNode_of_mem_children
      have numbers := numberAll_length ast.numbered json.children
      have added := keeps json id parent waiting ast above before
      have kept : ((ast.keep json id parent).get? id).isSome = true := by
        rw [keep_get?, if_pos rfl]
        rfl
      generalize (numberAll ast.numbered json.children).1 = left at numbers added
      generalize ast.keep json id parent = after at added kept
      -- The trees below are added one after the other, each under the first number that is left.
      generalize json.children = children at below nodes numbers
      induction children generalizing left after with
      | nil => rwa [List.length_eq_zero_iff.mp numbers] at added
      | cons child children ih =>
          obtain - | ⟨first, left⟩ := left
          · cases numbers
          · have isNode := nodes child List.mem_cons_self
            have next := below child List.mem_cons_self
              (fun waiting ast => invariant waiting ast ∧ (ast.get? id).isSome = true)
              (fun json other top waiting ast above before =>
                ⟨keeps json other top waiting ast above before.1,
                  keep_kept before.2 json other top⟩)
              isNode (fun top member => Option.some.inj member ▸ kept) left (left ++ waiting)
              ⟨added, kept⟩
            rw [addTree_eq isNode] at next
            rw [addEach, List.foldl_cons, addTree_eq isNode]
            exact ih left _ next.1 next.2
              (fun other member => below other (List.mem_cons_of_mem _ member))
              (fun other member => nodes other (List.mem_cons_of_mem _ member))
              (Nat.succ.inj numbers)

theorem insert_eq {ast : Ast} {json : Json} (node : json.isNode = true) :
    ast.insert json = .ok ((number ast.numbered json).1,
      (addTree json none ([(number ast.numbered json).1],
        { ast with
          roots := ast.roots ++ [(number ast.numbered json).1]
          numbered := (number ast.numbered json).2 })).2) :=
  if_pos node

theorem isNode_of_insert {ast after : Ast} {json : Json} {root : NodeId}
    (inserted : ast.insert json = .ok (root, after)) : json.isNode = true := by
  rw [insert] at inserted
  split at inserted
  · assumption
  · cases inserted

namespace Built

theorem ordered {ast : Ast} (built : ast.Built) : ast.Ordered [] ∧ ast.ParentsKept := by
  induction built with
  | empty =>
      exact ⟨ordered_empty, fun id parent stands => by simp [parent?, Ast.empty] at stands⟩
  | @insert ast after json root _ inserted before =>
      have node := isNode_of_insert inserted
      rw [insert_eq node] at inserted
      cases inserted
      refine addTree_preserves (fun waiting ast => ast.Ordered waiting ∧ ast.ParentsKept)
        (fun json id parent waiting ast above before =>
          ⟨before.1.keep json parent, before.2.keep json id above⟩) node (by simp) [] [] ?_
      refine ⟨?_, before.2⟩
      obtain ⟨now, kept, past, linked⟩ := before.1
      exact ⟨now, kept, past, fun parent child link =>
        (linked parent child link).imp_left fun waits => absurd waits List.not_mem_nil⟩

/-- A node refers to nodes that are kept, and its references lead down. -/
theorem linked {ast : Ast} (built : ast.Built) :
    ∃ height : NodeId → Nat, ∀ parent child, ast.Child parent child →
      (ast.get? child).isSome = true ∧ height child < height parent := by
  obtain ⟨now, kept, past, linked⟩ := built.ordered.1
  refine ⟨fun id => now - kept id, fun parent child link => ?_⟩
  obtain ⟨there, later⟩ := (linked parent child link).resolve_left List.not_mem_nil
  exact ⟨there, Nat.sub_lt_sub_left (Nat.lt_of_lt_of_le later (past child)) later⟩

theorem get?_child {ast : Ast} (built : ast.Built) {parent child : NodeId}
    (link : ast.Child parent child) : (ast.get? child).isSome = true :=
  let ⟨_, linked⟩ := built.linked
  (linked parent child link).1

/-- Induction along the references: what holds of all that a number refers to holds of it. -/
@[elab_as_elim]
theorem induction {ast : Ast} (built : ast.Built) {motive : NodeId → Prop}
    (step : ∀ id, (∀ child, ast.Child id child → motive child) → motive id) (id : NodeId) :
    motive id := by
  obtain ⟨height, linked⟩ := built.linked
  induction level : height id using Nat.strongRecOn generalizing id with
  | ind level ih =>
      exact step id fun child link => ih _ (level ▸ (linked id child link).2) child rfl

end Built

end Ast

end SolTrace
