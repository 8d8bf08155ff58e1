import Mathlib.Data.List.Perm.Basic
import SolTrace.Proofs.Ast.Documents
/-!
Documents as trees with numbers. The places of a tree are its nodes in recursive pre-order, each
with the numbers of the nodes around it. What is kept for a node is told by its document and by the
numbers of the nodes right below it.
-/
set_option autoImplicit false

namespace SolTrace

namespace Json

/-- The nodes of a document in recursive pre-order. -/
def nodes (json : Json) : List Json :=
  json :: json.children.attach.flatMap fun child => child.1.nodes
termination_by sizeOf json
decreasing_by exact sizeOf_lt_of_mem_children child.2

theorem nodes_eq (json : Json) : json.nodes = json :: json.children.flatMap nodes := by
  rw [nodes, List.flatMap_subtype, List.unattach_attach]
  exact fun _ _ => rfl

end Json

namespace Ast

/-- A document with a number for each of its nodes. -/
inductive Tree
  | node (id : NodeId) (document : Json) (subtrees : List Tree)

namespace Tree

def id : Tree → NodeId
  | node id _ _ => id

def document : Tree → Json
  | node _ document _ => document

def subtrees : Tree → List Tree
  | node _ _ subtrees => subtrees

@[elab_as_elim]
theorem induction {motive : Tree → Prop}
    (step : ∀ tree : Tree, (∀ subtree ∈ tree.subtrees, motive subtree) → motive tree)
    (tree : Tree) : motive tree := by
  apply @Tree.rec motive fun trees => ∀ tree ∈ trees, motive tree
  · exact fun id document subtrees holds => step (node id document subtrees) holds
  · exact fun _ member => (List.not_mem_nil member).elim
  · exact fun _ _ first others => List.forall_mem_cons.mpr ⟨first, others⟩

end Tree

/-- A node of a tree, and the numbers of the nodes around it, innermost first. -/
structure Place where
  above : List NodeId
  tree : Tree

namespace Tree

mutual

/-- The nodes of a tree in recursive pre-order. -/
def places (above : List NodeId) : Tree → List Place
  | node id document subtrees =>
      ⟨above, node id document subtrees⟩ :: placesEach (id :: above) subtrees

def placesEach (above : List NodeId) : List Tree → List Place
  | [] => []
  | tree :: trees => tree.places above ++ placesEach above trees

end

theorem placesEach_eq (above : List NodeId) (trees : List Tree) :
    placesEach above trees = trees.flatMap (places above) := by
  induction trees with
  | nil => rfl
  | cons tree trees ih => rw [placesEach, ih, List.flatMap_cons]

/-- The places below the root of a tree. -/
def lower (above : List NodeId) (tree : Tree) : List Place :=
  tree.subtrees.flatMap (places (tree.id :: above))

theorem places_eq (above : List NodeId) (tree : Tree) :
    tree.places above = ⟨above, tree⟩ :: tree.lower above := by
  cases tree with
  | node id document subtrees => rw [places, placesEach_eq]; rfl

theorem mem_places_self (above : List NodeId) (tree : Tree) : ⟨above, tree⟩ ∈ tree.places above :=
  places_eq above tree ▸ List.mem_cons_self

theorem mem_places_of_subtree {above : List NodeId} {tree subtree : Tree} {place : Place}
    (member : subtree ∈ tree.subtrees) (within : place ∈ subtree.places (tree.id :: above)) :
    place ∈ tree.places above :=
  places_eq above tree ▸ List.mem_cons_of_mem _ (List.mem_flatMap.mpr ⟨subtree, member, within⟩)

end Tree

namespace Place

def id (place : Place) : NodeId :=
  place.tree.id

/-- The number that the document gives. -/
def given? (place : Place) : Option NodeId :=
  place.tree.document.nodeId?

/-- The trees right below are those of the nodes right below in the document. -/
def Matches (place : Place) : Prop :=
  place.tree.subtrees.map Tree.document = place.tree.document.children

end Place

theorem Tree.places_documents {above : List NodeId} {tree : Tree}
    (matching : ∀ place ∈ tree.places above, place.Matches) :
    (tree.places above).map (fun place => place.tree.document) = tree.document.nodes := by
  induction tree using Tree.induction generalizing above with
  | step tree ih =>
      have children : tree.subtrees.map Tree.document = tree.document.children :=
        matching _ (mem_places_self above tree)
      rw [places_eq, List.map_cons, lower, List.map_flatMap, Json.nodes_eq, ← children,
        List.flatMap_map]
      refine congrArg (tree.document :: ·) (List.flatMap_congr fun subtree member => ?_)
      exact ih subtree member fun place within =>
        matching place (mem_places_of_subtree member within)

/-! ### What is kept for a node -/

/-- The fields of a document that hold nodes, with numbers from a list. -/
def fill : List (String × Json) → List NodeId → List (String × List NodeId)
  | [], _ => []
  | (key, value) :: rest, ids =>
      match fieldNodes value with
      | [] => fill rest ids
      | nodes => (key, ids.take nodes.length) :: fill rest (ids.drop nodes.length)

theorem fill_ids (members : List (String × Json)) (ids : List NodeId)
    (enough : ids.length = (members.flatMap fun member => fieldNodes member.2).length) :
    (fill members ids).flatMap Prod.snd = ids := by
  induction members generalizing ids with
  | nil => exact (List.length_eq_zero_iff.mp enough).symm
  | cons member members ih =>
      obtain ⟨key, value⟩ := member
      rw [List.flatMap_cons, List.length_append] at enough
      rw [fill]
      split
      · next none => exact ih ids (by rw [enough, none]; exact Nat.zero_add _)
      · rw [List.flatMap_cons, ih _ (by rw [List.length_drop, enough, Nat.add_sub_cancel_left])]
        exact List.take_append_drop _ ids

theorem numberFields_fill (numbered : Nat) (members : List (String × Json)) :
    (numberFields numbered members).1 =
      fill members (numberAll numbered (members.flatMap fun member => fieldNodes member.2)).1 := by
  induction members generalizing numbered with
  | nil => rfl
  | cons member members ih =>
      obtain ⟨key, value⟩ := member
      have length := numberAll_length numbered (fieldNodes value)
      rw [List.flatMap_cons, numberAll_append, numberFields, fill]
      cases nodes : fieldNodes value with
      | nil => exact ih numbered
      | cons first nodes =>
          rw [nodes] at length
          simp only [ih, ← length, List.take_left, List.drop_left]

/-- The node that is kept for the root of a tree. -/
def Tree.kept (tree : Tree) : Node :=
  nodeOf tree.id tree.document.members (fill tree.document.members (tree.subtrees.map Tree.id))

theorem Tree.kept_childIds {tree : Tree} {above : List NodeId}
    (matching : Place.Matches ⟨above, tree⟩) : tree.kept.childIds = tree.subtrees.map Tree.id := by
  refine fill_ids _ _ ?_
  have same := congrArg List.length matching
  rwa [List.length_map] at same ⊢

theorem described_eq_kept (id : NodeId) (json : Json) (numbered : Nat) {subtrees : List Tree}
    (numbers : subtrees.map Tree.id = (numberAll numbered json.children).1) :
    described json id numbered = (Tree.node id json subtrees).kept := by
  rw [described, numberFields_fill]
  exact congrArg (fun ids => nodeOf id json.members (fill json.members ids)) numbers.symm

/-! ### Numbers -/

/-- Places whose numbers are those of their documents or, for documents without a number, distinct
negative ones below `-lo` and down to `-hi`. -/
structure Numbers (lo hi : Nat) (places : List Place) : Prop where
  le : lo ≤ hi
  given : ∀ place ∈ places, ∀ id, place.given? = some id → place.id = id
  fresh : ∀ place ∈ places, place.given? = none → (lo : Int) < -place.id ∧ (hi : Int) ≥ -place.id
  distinct : places.Pairwise fun place other =>
    place.given? = none → other.given? = none → place.id ≠ other.id

namespace Numbers

variable {lo mid hi : Nat} {places others : List Place}

theorem nil (lo : Nat) : Numbers lo lo [] :=
  ⟨Nat.le_refl lo, by simp, by simp, .nil⟩

theorem append (first : Numbers lo mid places) (second : Numbers mid hi others) :
    Numbers lo hi (places ++ others) where
  le := Nat.le_trans first.le second.le
  given place member := (List.mem_append.mp member).elim (first.given place) (second.given place)
  fresh place member none := by
    have below := first.le
    have above := second.le
    rcases List.mem_append.mp member with member | member
    · have := first.fresh place member none
      omega
    · have := second.fresh place member none
      omega
  distinct := by
    refine List.pairwise_append.mpr ⟨first.distinct, second.distinct, ?_⟩
    intro place member other otherMember none otherNone same
    have higher := first.fresh place member none
    have lower := second.fresh other otherMember otherNone
    rw [same] at higher
    omega

theorem perm (numbers : Numbers lo hi places) (same : places.Perm others) :
    Numbers lo hi others where
  le := numbers.le
  given place member := numbers.given place (same.mem_iff.mpr member)
  fresh place member := numbers.fresh place (same.mem_iff.mpr member)
  distinct := (same.pairwise_iff fun differ none otherNone equal =>
    differ otherNone none equal.symm).mp numbers.distinct

/-- A node gets its number from its document, or the next negative one. -/
theorem number {place : Place} {numbered : Nat}
    (id : place.id = (Ast.number numbered place.tree.document).1) :
    Numbers numbered (Ast.number numbered place.tree.document).2 [place] := by
  have unfolded : Ast.number numbered place.tree.document =
      match place.given? with
      | some id => (id, numbered)
      | none => (-(numbered + 1 : Int), numbered + 1) := rfl
  rw [unfolded] at id ⊢
  cases given : place.given? with
  | none =>
      rw [given] at id
      have next : (numbered : Int) + 1 = -place.id := by rw [id]; exact (Int.neg_neg _).symm
      refine ⟨Nat.le_succ _, by simp [given], ?_, List.pairwise_singleton _ _⟩
      simp only [List.mem_singleton, forall_eq]
      omega
  | some number =>
      rw [given] at id
      exact ⟨Nat.le_refl _, by simp [given, id], by simp [given], List.pairwise_singleton _ _⟩

theorem numberAll (above : List NodeId) {trees : List Tree} {numbered : Nat}
    (ids : trees.map Tree.id = (Ast.numberAll numbered (trees.map Tree.document)).1) :
    Numbers numbered (Ast.numberAll numbered (trees.map Tree.document)).2
      (trees.map fun tree => ⟨above, tree⟩) := by
  induction trees generalizing numbered with
  | nil => exact .nil numbered
  | cons tree trees ih =>
      rw [List.map_cons, List.map_cons, Ast.numberAll, List.cons.injEq] at ids
      have first : Numbers numbered _ [⟨above, tree⟩] := .number ids.1
      exact first.append (ih ids.2)

/-- Numbers are distinct, if those that documents give are distinct and not negative. -/
theorem nodup (numbers : Numbers lo hi places)
    (natural : ∀ place ∈ places, ∀ id, place.given? = some id → (0 : Int) ≤ id)
    (distinct : (places.filterMap Place.given?).Nodup) : (places.map Place.id).Nodup := by
  rw [List.nodup_iff_pairwise_ne, List.pairwise_map]
  have given := List.pairwise_filterMap.mp (List.nodup_iff_pairwise_ne.mp distinct)
  refine (given.and numbers.distinct).imp_of_mem ?_
  rintro place other member otherMember ⟨givenDiffer, freshDiffer⟩ same
  cases given : place.given? with
  | none =>
      cases otherGiven : other.given? with
      | none => exact freshDiffer given otherGiven same
      | some id =>
          have negative := (numbers.fresh place member given).1
          have positive := natural other otherMember id otherGiven
          rw [same, numbers.given other otherMember id otherGiven] at negative
          omega
  | some id =>
      cases otherGiven : other.given? with
      | none =>
          have negative := (numbers.fresh other otherMember otherGiven).1
          have positive := natural place member id given
          rw [← same, numbers.given place member id given] at negative
          omega
      | some otherId =>
          refine givenDiffer id given otherId otherGiven ?_
          rw [← numbers.given place member id given, same,
            numbers.given other otherMember otherId otherGiven]

end Numbers

end Ast

end SolTrace
