import SolTrace.Proofs.Ast.Growth
import SolTrace.Proofs.Ast.Walks
/-!
Inserting a document whose numbers are distinct. A walk from the root meets the nodes of the
document in recursive pre-order, what stands above a node is what is around it in the document, and
all that was in the arena before stays as it was.
-/
set_option autoImplicit false

namespace SolTrace

namespace Ast

/-! ### What is above a node -/

/-- Each number is followed by the parent of its node, and the last one has no parent. -/
def Rises (ast : Ast) : List NodeId → Prop
  | [] => True
  | id :: above => ast.parent? id = above.head? ∧ ast.Rises above

theorem Rises.unique {ast : Ast} {id : NodeId} {above others : List NodeId}
    (rises : ast.Rises (id :: above)) (otherwise : ast.Rises (id :: others)) : above = others := by
  induction above generalizing id others with
  | nil =>
      have same := rises.1.symm.trans otherwise.1
      exact (List.head?_eq_none_iff.mp same.symm).symm
  | cons parent above ih =>
      have same := rises.1.symm.trans otherwise.1
      cases others with
      | nil => cases same
      | cons other others =>
          cases same
          rw [ih rises.2 otherwise.2]

theorem Rises.of_append {ast : Ast} {path rest : List NodeId} (rises : ast.Rises (path ++ rest)) :
    ast.Rises rest := by
  induction path with
  | nil => exact rises
  | cons _ path ih => exact ih rises.2

theorem Rises.nodup {ast : Ast} {path : List NodeId} (rises : ast.Rises path) : path.Nodup := by
  induction path with
  | nil => exact List.nodup_nil
  | cons id above ih =>
      refine List.nodup_cons.mpr ⟨fun member => ?_, ih rises.2⟩
      obtain ⟨path, rest, split⟩ := List.append_of_mem member
      -- From the second time on, the way up would be the same again, and never end.
      have again := rises.2
      rw [split] at again
      have same := congrArg List.length ((rises.unique again.of_append).symm.trans split)
      rw [List.length_append, List.length_cons] at same
      omega

theorem Rises.ancestorsWithin {ast : Ast} {id : NodeId} {above : List NodeId}
    (rises : ast.Rises (id :: above)) (depth : Nat) :
    ast.ancestorsWithin depth id = (id :: above).take depth := by
  induction depth generalizing id above with
  | zero => rfl
  | succ depth ih =>
      rw [Ast.ancestorsWithin, rises.1, List.take_succ_cons]
      cases above with
      | nil => simp
      | cons parent above => exact congrArg (id :: ·) (ih rises.2)

/-- The bound on the number of ancestors cuts nothing off. -/
theorem Rises.ancestors {ast : Ast} {id : NodeId} {above : List NodeId}
    (rises : ast.Rises (id :: above)) : ast.ancestors id = id :: above := by
  have below : ∀ path, ast.Rises path → ∀ other ∈ path.dropLast, other ∈ ast.parents.keys := by
    intro path rises
    induction path with
    | nil => simp
    | cons other path ih =>
        cases path with
        | nil => simp
        | cons parent path =>
            rw [List.dropLast_cons_cons]
            refine List.forall_mem_cons.mpr ⟨?_, ih rises.2⟩
            rw [Std.ExtTreeMap.mem_keys, ← Std.ExtTreeMap.isSome_getElem?_iff_mem]
            exact Option.isSome_iff_exists.mpr ⟨parent, rises.1⟩
  have distinct := rises.nodup.sublist (List.dropLast_sublist _)
  have bound := distinct.length_le_of_subset (below _ rises)
  rw [List.length_dropLast, List.length_cons, Std.ExtTreeMap.length_keys] at bound
  rw [Ast.ancestors, rises.ancestorsWithin, List.take_of_length_le]
  rw [List.length_cons]
  omega

theorem Tree.rises {ast : Ast} {above : List NodeId} {tree : Tree}
    (stands : ∀ place ∈ tree.places above, ast.parent? place.id = place.above.head?)
    (rises : ast.Rises above) :
    ∀ place ∈ tree.places above, ast.Rises (place.id :: place.above) := by
  induction tree using Tree.induction generalizing above with
  | step tree ih =>
      have here : ast.Rises (tree.id :: above) := ⟨stands _ (mem_places_self above tree), rises⟩
      rw [places_eq]
      refine List.forall_mem_cons.mpr ⟨here, fun place member => ?_⟩
      obtain ⟨subtree, inside, within⟩ := List.mem_flatMap.mp member
      exact ih subtree inside
        (fun place within => stands place (mem_places_of_subtree inside within)) here place within

/-! ### A walk through a tree -/

theorem Built.walk_tree {ast : Ast} (built : ast.Built) {above : List NodeId} {tree : Tree}
    (matching : ∀ place ∈ tree.places above, place.Matches)
    (kept : ∀ place ∈ tree.places above, ast.get? place.id = some place.tree.kept) :
    ast.walk tree.id = (tree.places above).map fun place => place.tree.kept := by
  induction tree using Tree.induction generalizing above with
  | step tree ih =>
      have here := Tree.mem_places_self above tree
      have found : ast.get? tree.id = some tree.kept := kept _ here
      rw [built.walk_of_get? found, Tree.kept_childIds (matching _ here), Tree.places_eq,
        List.map_cons, Tree.lower, List.map_flatMap, List.flatMap_map]
      refine congrArg (tree.kept :: ·) (List.flatMap_congr fun subtree member => ?_)
      exact ih subtree member
        (fun place within => matching place (Tree.mem_places_of_subtree member within))
        fun place within => kept place (Tree.mem_places_of_subtree member within)

/-! ### What stays as it was -/

/-- The nodes of an arena are in another one as they were, with all that is above and below. -/
structure Keeps (before after : Ast) (id : NodeId) : Prop where
  get? : after.get? id = before.get? id
  walk : after.walk id = before.walk id
  parent? : after.parent? id = before.parent? id
  ancestorsWithin : ∀ depth, after.ancestorsWithin depth id = before.ancestorsWithin depth id
  ancestors : ∀ above, before.Rises (id :: above) → after.ancestors id = before.ancestors id

section

variable {before after : Ast} (built : before.Built)
    (get? : ∀ id, (before.get? id).isSome = true → after.get? id = before.get? id)
    (parent? : ∀ id, (before.get? id).isSome = true → after.parent? id = before.parent? id)

include built get? in
theorem walk_of_kept (grown : after.Built) {id : NodeId} (kept : (before.get? id).isSome = true) :
    after.walk id = before.walk id := by
  induction id using built.induction with
  | step id ih =>
      obtain ⟨node, found⟩ := Option.isSome_iff_exists.mp kept
      rw [built.walk_of_get? found, grown.walk_of_get? ((get? id kept).trans found)]
      refine congrArg (node :: ·) (List.flatMap_congr fun child member => ?_)
      have link : before.Child id child := ⟨node, found, member⟩
      exact ih child link (built.get?_child link)

include built parent? in
theorem ancestorsWithin_of_kept {id : NodeId} (kept : (before.get? id).isSome = true)
    (depth : Nat) : after.ancestorsWithin depth id = before.ancestorsWithin depth id := by
  induction depth generalizing id with
  | zero => rfl
  | succ depth ih =>
      rw [ancestorsWithin, ancestorsWithin, parent? id kept]
      cases stands : before.parent? id with
      | none => rfl
      | some parent =>
          exact congrArg (id :: ·) (ih (built.ordered.2 id parent stands).2)

include built parent? in
theorem rises_of_kept {id : NodeId} {above : List NodeId}
    (kept : (before.get? id).isSome = true) (rises : before.Rises (id :: above)) :
    after.Rises (id :: above) := by
  induction above generalizing id with
  | nil => exact ⟨(parent? id kept).trans rises.1, trivial⟩
  | cons parent above ih =>
      have keptAbove := (built.ordered.2 id parent rises.1).2
      exact ⟨(parent? id kept).trans rises.1, ih keptAbove rises.2⟩

include built get? parent? in
theorem keeps_of_kept (grown : after.Built) {id : NodeId}
    (kept : (before.get? id).isSome = true) : Keeps before after id where
  get? := get? id kept
  walk := walk_of_kept built get? grown kept
  parent? := parent? id kept
  ancestorsWithin := ancestorsWithin_of_kept built parent? kept
  ancestors _ rises :=
    (rises_of_kept built parent? kept rises).ancestors.trans rises.ancestors.symm

end

/-! ### Inserting a document -/

/-- Any document grows into its tree, also one that repeats numbers. -/
theorem insert_grows (ast : Ast) {json : Json} (node : json.isNode = true) :
    ∃ (tree : Tree) (after : Ast), ast.insert json = .ok (tree.id, after) ∧
      tree.document = json ∧ (∀ place ∈ tree.places [], place.Matches) ∧
      Adds ast after (tree.places []) ∧ Numbers ast.numbered after.numbered (tree.places []) := by
  obtain ⟨tree, treeId, document, grows⟩ := plants node (number ast.numbered json).1 [] []
    { ast with
      roots := ast.roots ++ [(number ast.numbered json).1]
      numbered := (number ast.numbered json).2 }
  refine ⟨tree, _, by rw [treeId]; exact insert_eq node, document, grows.matching,
    ⟨grows.adds.get?, grows.adds.parent?⟩, ?_⟩
  have root : Numbers ast.numbered (number ast.numbered json).2 [⟨[], tree⟩] := by
    subst document
    have id : Place.id ⟨[], tree⟩ = (number ast.numbered tree.document).1 := treeId
    exact .number id
  rw [Tree.places_eq]
  exact root.append grows.numbers

/-- A document that may go into an arena: the numbers it gives are natural, distinct and not in
use. -/
structure Fits (ast : Ast) (json : Json) : Prop where
  node : json.isNode = true
  natural : ∀ node ∈ json.nodes, ∀ id, node.nodeId? = some id → (0 : Int) ≤ id
  unused : ∀ node ∈ json.nodes, ∀ id, node.nodeId? = some id → ast.get? id = none
  distinct : (json.nodes.filterMap Json.nodeId?).Nodup

/-- The negative numbers that an arena is yet to hand out are not in use. -/
def Ahead (ast : Ast) : Prop :=
  ∀ id : NodeId, (ast.numbered : Int) < -id → ast.get? id = none

/-- An arena is another one with a tree, which is that of a document, under numbers of its own. -/
structure Holds (before after : Ast) (json : Json) (tree : Tree) : Prop where
  document : tree.document = json
  matching : ∀ place ∈ tree.places [], place.Matches
  distinct : ((tree.places []).map Place.id).Nodup
  new : ∀ place ∈ tree.places [], before.get? place.id = none
  given : ∀ place ∈ tree.places [], ∀ id, place.given? = some id → place.id = id
  negative : ∀ place ∈ tree.places [], place.given? = none → (0 : Int) > place.id
  walk : after.walk tree.id = (tree.places []).map fun place => place.tree.kept
  parent? : ∀ place ∈ tree.places [], after.parent? place.id = place.above.head?
  rises : ∀ place ∈ tree.places [], after.Rises (place.id :: place.above)
  ancestors : ∀ place ∈ tree.places [], after.ancestors place.id = place.id :: place.above
  keeps : ∀ id, (before.get? id).isSome = true → Keeps before after id

namespace Fits

variable {ast after : Ast} {json : Json} {tree : Tree} (fits : ast.Fits json)
    (documents : (tree.places []).map (fun place => place.tree.document) = json.nodes)
include fits documents

theorem natural_places :
    ∀ place ∈ tree.places [], ∀ id, place.given? = some id → (0 : Int) ≤ id :=
  fun place member => fits.natural place.tree.document
    (documents ▸ List.mem_map_of_mem member)

theorem distinct_places (numbers : Numbers ast.numbered after.numbered (tree.places [])) :
    ((tree.places []).map Place.id).Nodup := by
  refine numbers.nodup (fits.natural_places documents) ?_
  have same : (tree.places []).filterMap Place.given? = json.nodes.filterMap Json.nodeId? := by
    rw [← documents, List.filterMap_map]
    rfl
  exact same ▸ fits.distinct

theorem new_places (ahead : ast.Ahead)
    (numbers : Numbers ast.numbered after.numbered (tree.places [])) :
    ∀ place ∈ tree.places [], ast.get? place.id = none := by
  intro place member
  cases given : place.given? with
  | none => exact ahead place.id (numbers.fresh place member given).1
  | some id =>
      rw [numbers.given place member id given]
      exact fits.unused place.tree.document (documents ▸ List.mem_map_of_mem member) id given

theorem ahead_places (ahead : ast.Ahead) (adds : Adds ast after (tree.places []))
    (numbers : Numbers ast.numbered after.numbered (tree.places [])) : after.Ahead := by
  intro id free
  have absent : id ∉ (tree.places []).map Place.id := by
    intro member
    obtain ⟨place, inside, rfl⟩ := List.mem_map.mp member
    cases given : place.given? with
    | none =>
        have := (numbers.fresh place inside given).2
        omega
    | some number =>
        have positive := fits.natural_places documents place inside number given
        rw [numbers.given place inside number given] at free
        omega
  rw [adds.get?_of_not_mem absent]
  have := numbers.le
  exact ahead id (by omega)

end Fits

/-- After inserting a document, an arena is what it was before with the tree of the document, and
the numbers that it is yet to hand out are still not in use. -/
theorem insert_holds {ast : Ast} {json : Json} (built : ast.Built) (ahead : ast.Ahead)
    (fits : ast.Fits json) : ∃ (tree : Tree) (after : Ast),
      ast.insert json = .ok (tree.id, after) ∧ Holds ast after json tree ∧ after.Ahead := by
  obtain ⟨tree, after, inserted, document, matching, adds, numbers⟩ := ast.insert_grows fits.node
  have documents : (tree.places []).map (fun place => place.tree.document) = json.nodes :=
    document ▸ Tree.places_documents matching
  have distinct := fits.distinct_places documents numbers
  have new := fits.new_places documents ahead numbers
  have grown : after.Built := .insert built inserted
  have absent : ∀ id, (ast.get? id).isSome = true → id ∉ (tree.places []).map Place.id := by
    intro id kept member
    obtain ⟨place, inside, rfl⟩ := List.mem_map.mp member
    rw [new place inside] at kept
    cases kept
  have stands : ∀ place ∈ tree.places [], after.parent? place.id = place.above.head? := by
    intro place member
    have before : ast.parent? place.id = none := by
      refine Option.eq_none_iff_forall_ne_some.mpr fun parent stands => ?_
      have kept := (built.ordered.2 place.id parent stands).1
      rw [new place member] at kept
      cases kept
    rw [adds.parent?, latest_of_mem _ distinct member, before, Option.or_none]
  have rises := Tree.rises stands trivial
  refine ⟨tree, after, inserted, ?_, fits.ahead_places documents ahead adds numbers⟩
  exact {
    document, matching, distinct, new
    given := numbers.given
    negative := fun place member none => by
      have := (numbers.fresh place member none).1
      omega
    walk := grown.walk_tree matching fun place member => adds.get?_of_mem distinct member
    parent? := stands
    rises
    ancestors := fun place member => (rises place member).ancestors
    keeps := fun id kept => keeps_of_kept built
      (fun id kept => adds.get?_of_not_mem (absent id kept))
      (fun id kept => adds.parent?_of_not_mem (absent id kept)) grown kept }

/-- A document of one node, which has no number. -/
def single (tag : String) : Json :=
  .object [("nodeType", .string tag)]

/-- A document of two nodes, the inner one without a number. -/
def nested (id : String) : Json :=
  .object [("nodeType", .string "A"), ("id", .number id), ("k", single "B")]

/-- A document with a node that has no number goes into an arena, and then another one. -/
theorem insert_holds_twice : ∃ (first second : Tree) (middle after : Ast),
    empty.insert (nested "1") = .ok (first.id, middle) ∧ Holds empty middle (nested "1") first ∧
      middle.insert (single "C") = .ok (second.id, after) ∧
      Holds middle after (single "C") second ∧ after.Ahead := by
  have alone : ∀ tag, (single tag).nodes = [single tag] := fun tag => by rw [Json.nodes_eq]; rfl
  have numberless : ∀ tag, (single tag).nodeId? = none := fun _ => rfl
  have both : (nested "1").nodes = [nested "1", single "B"] := by
    rw [Json.nodes_eq, ← alone "B"]
    exact congrArg (nested "1" :: ·) (List.append_nil _)
  have given : (nested "1").nodeId? = some 1 := rfl
  have fits : empty.Fits (nested "1") :=
    ⟨rfl, by simp [both, given, numberless], fun _ _ _ _ => rfl, by simp [both, given, numberless]⟩
  obtain ⟨first, middle, inserted, holds, ahead⟩ := insert_holds .empty (fun _ _ => rfl) fits
  have fits : middle.Fits (single "C") :=
    ⟨rfl, by simp [alone, numberless], by simp [alone, numberless], by simp [alone, numberless]⟩
  obtain ⟨second, after, insertedThen, holdsThen, ahead⟩ :=
    insert_holds (.insert .empty inserted) ahead fits
  exact ⟨first, second, middle, after, inserted, holds, insertedThen, holdsThen, ahead⟩

/-- An arena that got a negative number from a document hands it out again. -/
theorem not_insert_holds_always : ¬ ∀ (ast : Ast) (json : Json), ast.Built → ast.Fits json →
    ∃ (tree : Tree) (after : Ast), ast.insert json = .ok (tree.id, after) ∧
      Holds ast after json tree := by
  intro always
  obtain ⟨ast, inserted, kept, first⟩ : ∃ ast : Ast,
      empty.insert (.object [("nodeType", .string "A"), ("id", .number "-1")]) = .ok (-1, ast) ∧
        (ast.get? (-1)).isSome = true ∧ ast.numbered = 0 := ⟨_, rfl, rfl, rfl⟩
  have alone : (single "B").nodes = [single "B"] := by rw [Json.nodes_eq]; rfl
  have numberless : (single "B").nodeId? = .none := rfl
  have fits : ast.Fits (single "B") :=
    ⟨rfl, by simp [alone, numberless], by simp [alone, numberless], by simp [alone, numberless]⟩
  obtain ⟨tree, after, again, holds⟩ := always ast (single "B") (.insert .empty inserted) fits
  rw [insert_eq fits.node] at again
  have id : (number ast.numbered (single "B")).1 = tree.id :=
    congrArg Prod.fst (Except.ok.inj again)
  rw [number, show ((single "B").get? "id").bind Json.int64? = .none from rfl, first] at id
  have new := holds.new _ (Tree.mem_places_self [] tree)
  rw [show Place.id ⟨[], tree⟩ = -1 from id.symm] at new
  rw [new] at kept
  cases kept

end Ast

end SolTrace
