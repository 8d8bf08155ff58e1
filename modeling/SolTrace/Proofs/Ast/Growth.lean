import SolTrace.Proofs.Ast.Trees
/-!
What insertion adds to an arena. All of it is told by the places of one tree, which is the tree of
the document: what is kept under a number, and what stands above it, is what the last place with
that number tells.
-/
set_option autoImplicit false

namespace SolTrace

namespace Ast

/-- What the last place with a number tells. -/
def latest {α : Type} (told : Place → Option α) (places : List Place) (id : NodeId) : Option α :=
  places.reverse.findSome? fun place => if place.id = id then told place else none

section

variable {α : Type} (told : Place → Option α) {places : List Place}

theorem latest_append (others : List Place) (id : NodeId) :
    latest told (places ++ others) id = (latest told others id).or (latest told places id) := by
  rw [latest, List.reverse_append, List.findSome?_append]
  rfl

theorem latest_singleton (place : Place) (id : NodeId) :
    latest told [place] id = if place.id = id then told place else none := by
  rw [latest, List.reverse_singleton, List.findSome?_singleton]

theorem latest_of_not_mem {id : NodeId} (absent : id ∉ places.map Place.id) :
    latest told places id = none := by
  rw [latest, List.findSome?_eq_none_iff]
  intro place member
  refine if_neg fun same => absent ?_
  exact same ▸ List.mem_map_of_mem (List.mem_reverse.mp member)

theorem latest_of_mem (distinct : (places.map Place.id).Nodup) {place : Place}
    (member : place ∈ places) : latest told places place.id = told place := by
  obtain ⟨before, after, rfl⟩ := List.append_of_mem member
  rw [List.map_append, List.map_cons, List.nodup_append, List.nodup_cons] at distinct
  obtain ⟨-, ⟨later, -⟩, apart⟩ := distinct
  have earlier : place.id ∉ before.map Place.id :=
    fun member => apart _ member _ List.mem_cons_self rfl
  rw [latest_append, ← List.singleton_append, latest_append, latest_singleton, if_pos rfl,
    latest_of_not_mem told later, latest_of_not_mem told earlier, Option.none_or, Option.or_none]

end

/-- The places are what one arena has and the other has not. -/
structure Adds (before after : Ast) (places : List Place) : Prop where
  get? : ∀ id, after.get? id =
    (latest (fun place => some place.tree.kept) places id).or (before.get? id)
  parent? : ∀ id, after.parent? id =
    (latest (fun place => place.above.head?) places id).or (before.parent? id)

namespace Adds

theorem refl (ast : Ast) : Adds ast ast [] := ⟨fun _ => rfl, fun _ => rfl⟩

theorem trans {before middle after : Ast} {places others : List Place}
    (first : Adds before middle places) (second : Adds middle after others) :
    Adds before after (places ++ others) where
  get? id := by rw [second.get?, first.get?, latest_append, Option.or_assoc]
  parent? id := by rw [second.parent?, first.parent?, latest_append, Option.or_assoc]

theorem keep (ast : Ast) (json : Json) (id : NodeId) (above : List NodeId) {subtrees : List Tree}
    (numbers : subtrees.map Tree.id = (numberAll ast.numbered json.children).1) :
    Adds ast (ast.keep json id above.head?) [⟨above, .node id json subtrees⟩] where
  get? other := by
    rw [keep_get?, latest_singleton, described_eq_kept id json ast.numbered numbers]
    change _ = Option.or (if id = other then _ else _) _
    split <;> rfl
  parent? other := by
    rw [keep_parent?, latest_singleton]
    change _ = Option.or (if id = other then above.head? else none) _
    split
    · exact Option.or_eq_orElse.symm
    · rfl

theorem get?_of_mem {before after : Ast} {places : List Place} (adds : Adds before after places)
    (distinct : (places.map Place.id).Nodup) {place : Place} (member : place ∈ places) :
    after.get? place.id = some place.tree.kept := by
  rw [adds.get?, latest_of_mem _ distinct member]
  rfl

theorem get?_of_not_mem {before after : Ast} {places : List Place}
    (adds : Adds before after places) {id : NodeId} (absent : id ∉ places.map Place.id) :
    after.get? id = before.get? id := by
  rw [adds.get?, latest_of_not_mem _ absent]
  rfl

theorem parent?_of_not_mem {before after : Ast} {places : List Place}
    (adds : Adds before after places) {id : NodeId} (absent : id ∉ places.map Place.id) :
    after.parent? id = before.parent? id := by
  rw [adds.parent?, latest_of_not_mem _ absent]
  rfl

end Adds

/-- A tree grows below `above`: its places are added, and its numbers, but for the number of its
root, are handed out on the way. -/
structure Grows (before after : Ast) (above : List NodeId) (tree : Tree) : Prop where
  matching : ∀ place ∈ tree.places above, place.Matches
  adds : Adds before after (tree.places above)
  numbers : Numbers before.numbered after.numbered (tree.lower above)

/-- The tree of a document can grow anywhere, under any number for its root. -/
def Plants (json : Json) : Prop :=
  ∀ (id : NodeId) (above ids : List NodeId) (ast : Ast), ∃ tree : Tree,
    tree.id = id ∧ tree.document = json ∧
      Grows ast (addTree json above.head? (id :: ids, ast)).2 above tree

/-- Trees below the same node grow one after the other, each under the first number that is left. -/
theorem addEach_grows {children : List Json} (nodes : ∀ child ∈ children, child.isNode = true)
    (plants : ∀ child ∈ children, Plants child) (id : NodeId) (above : List NodeId)
    {ids : List NodeId} (numbers : ids.length = children.length) (ast : Ast) :
    ∃ trees : List Tree, trees.map Tree.id = ids ∧ trees.map Tree.document = children ∧
      (∀ tree ∈ trees, ∀ place ∈ tree.places (id :: above), place.Matches) ∧
      Adds ast (addEach (some id) children (ids, ast)).2
        (trees.flatMap (Tree.places (id :: above))) ∧
      Numbers ast.numbered (addEach (some id) children (ids, ast)).2.numbered
        (trees.flatMap (Tree.lower (id :: above))) := by
  induction children generalizing ids ast with
  | nil =>
      rw [List.length_eq_zero_iff.mp numbers]
      exact ⟨[], rfl, rfl, by simp, .refl ast, .nil _⟩
  | cons child children ih =>
      obtain - | ⟨first, ids⟩ := ids
      · cases numbers
      · obtain ⟨isNode, others⟩ := List.forall_mem_cons.mp nodes
        obtain ⟨plant, otherPlants⟩ := List.forall_mem_cons.mp plants
        obtain ⟨tree, treeId, document, grows⟩ := plant first (id :: above) ids ast
        obtain ⟨trees, treeIds, documents, matching, adds, lower⟩ :=
          ih others otherPlants (Nat.succ.inj numbers)
            (addTree child (some id) (first :: ids, ast)).2
        have state : addEach (some id) (child :: children) (first :: ids, ast) =
            addEach (some id) children (ids, (addTree child (some id) (first :: ids, ast)).2) := by
          rw [addEach, List.foldl_cons, addTree_eq isNode]
          rfl
        rw [state]
        refine ⟨tree :: trees, by rw [List.map_cons, treeId, treeIds],
          by rw [List.map_cons, document, documents],
          List.forall_mem_cons.mpr ⟨grows.matching, matching⟩, ?_, ?_⟩
        · rw [List.flatMap_cons]
          exact grows.adds.trans adds
        · rw [List.flatMap_cons]
          exact grows.numbers.append lower

theorem plants {json : Json} (node : json.isNode = true) : Plants json := by
  induction json using Json.nodeInduction with
  | node json below =>
      intro id above ids ast
      have children : ∀ child ∈ json.children, child.isNode = true :=
        fun child => Json.isNode_of_mem_children
      obtain ⟨trees, treeIds, documents, matching, adds, lower⟩ :=
        addEach_grows children (fun child member => below child member (children child member))
          id above (numberAll_length ast.numbered json.children) (ast.keep json id above.head?)
      rw [addTree_eq node]
      refine ⟨.node id json trees, rfl, rfl, ?_, ?_, ?_⟩
      · rw [Tree.places_eq]
        refine List.forall_mem_cons.mpr ⟨documents, fun place member => ?_⟩
        obtain ⟨tree, inside, within⟩ := List.mem_flatMap.mp member
        exact matching tree inside place within
      · rw [Tree.places_eq]
        exact (Adds.keep ast json id above treeIds).trans adds
      · -- The nodes right below are numbered first, and then those below each of them.
        rw [← documents] at treeIds
        have siblings := Numbers.numberAll (id :: above) treeIds
        rw [documents, ← keep_numbered ast json id above.head?] at siblings
        refine (siblings.append lower).perm ?_
        have places : trees.flatMap (Tree.places (id :: above)) =
            trees.flatMap fun tree => ⟨id :: above, tree⟩ :: tree.lower (id :: above) :=
          List.flatMap_congr fun tree _ => Tree.places_eq _ tree
        change List.Perm _ (trees.flatMap (Tree.places (id :: above)))
        rw [places]
        exact List.map_append_flatMap_perm trees _ _

end Ast

end SolTrace
