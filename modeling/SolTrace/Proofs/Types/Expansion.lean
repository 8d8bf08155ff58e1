import SolTrace.Proofs.Types.Building
import SolTrace.Proofs.Types.Sizes
import Mathlib.Data.Fintype.EquivFin
import Mathlib.Order.WellFounded
/-!
Layouts of structs against those in which every part is expanded. A struct that runs in circles by
its references has no members while structs of smaller names are resolved; one that has it as a part
then takes too few slots.
-/
set_option autoImplicit false

namespace SolTrace.UserTypes

open Resolver

/-! ### The reference -/

/-- Whether all parts of structs are expanded, to any depth. -/
def Expands (declared reference : String → List Variable) : Prop :=
  ∀ name, reference name = (declared name).map (Variable.expand reference)

section

variable {declared : String → List Variable}

end

/-- Whether the known structs have the members that they declare, filled in with what each found. -/
def Built (declared : String → List Variable) (structs : Structs) : Prop :=
  ∀ name, membersIn structs name =
    (declared name).map (Variable.fill (visible declared structs name))

/-- Whether a struct finds the size of a part when it is resolved. A part that it does not find
takes one slot. -/
def Finds (declared reference : String → List Variable) (owner part : String) : Prop :=
  Settled declared part ∨ part < owner ∨ Ty.sizesOf reference part = 1

/-- Whether a struct, its parts, and the parts of these at any depth find the sizes of all their
parts. -/
def Complete (declared reference : String → List Variable) (name : String) : Prop :=
  ∀ owner part, Relation.ReflTransGen (Holds declared) name owner → Holds declared owner part →
    Finds declared reference owner part

/-- Whether members are no constants, and the arrays in them are neither empty nor too large to
tell their size. -/
def Plain (declared reference : String → List Variable) : Prop :=
  ∀ name, ∀ var ∈ declared name,
    var.mutability = .mutable ∧ var.type.Moderate (Ty.sizesOf reference)

section

variable {declared reference : String → List Variable} {structs : Structs}

theorem Built.slots (built : Built declared structs) (name owner : String) :
    (Ty.struct name (membersIn structs owner)).slots =
      slotsBy (Ty.sizesOf (visible declared structs owner)) (declared owner) := by
  rw [built owner]
  exact slots_struct_retype (Ty.fill_sized _) name _

theorem Expands.slots (expands : Expands declared reference) (name owner : String) :
    (Ty.struct name (reference owner)).slots =
      slotsBy (Ty.sizesOf reference) (declared owner) := by
  rw [expands owner]
  exact slots_struct_retype (Ty.expand_sized _) name _

theorem sizesOf_visible {owner part : String} (found : Settled declared part ∨ part < owner) :
    Ty.sizesOf (visible declared structs owner) part = Ty.sizesOf (membersIn structs) part := by
  rw [Ty.sizesOf, Ty.sizesOf, visible, if_pos found]

/-- What is not found has no members, and takes one slot. -/
theorem sizesOf_placeholder {owner part : String}
    (missed : ¬ (Settled declared part ∨ part < owner)) :
    Ty.sizesOf (visible declared structs owner) part = 1 := by
  rw [Ty.sizesOf, visible, if_neg missed]
  rfl

theorem Complete.part {name part : String} (complete : Complete declared reference name)
    (holds : Holds declared name part) : Complete declared reference part :=
  fun _ _ reaches => complete _ _ (.head holds reaches)

/-- If all parts are found, a struct finds them as large as they are expanded. -/
theorem visible_eq (structs : Structs) {owner : String}
    (complete : Complete declared reference owner)
    (same : ∀ part, Holds declared owner part →
      Ty.sizesOf (membersIn structs) part = Ty.sizesOf reference part) :
    ∀ var ∈ declared owner, ∀ part ∈ var.type.held,
      Ty.sizesOf (visible declared structs owner) part = Ty.sizesOf reference part := by
  intro var member part held
  have holds : Holds declared owner part := ⟨var, member, held⟩
  by_cases found : Settled declared part ∨ part < owner
  · rw [sizesOf_visible found, same part holds]
  · have finds := complete owner part .refl holds
    rw [Finds, ← or_assoc] at finds
    rw [sizesOf_placeholder found, finds.resolve_left found]

theorem Built.slots_eq (built : Built declared structs) (expands : Expands declared reference)
    (parts : WellFounded fun part owner => Holds declared owner part) {name : String}
    (complete : Complete declared reference name) :
    Ty.sizesOf (membersIn structs) name = Ty.sizesOf reference name := by
  induction name using parts.induction with
  | _ owner ih =>
      have same := visible_eq structs complete
        fun part holds => ih part holds (complete.part holds)
      rw [Ty.sizesOf, Ty.sizesOf, built.slots, expands.slots]
      exact slotsBy_congr _ same

end

theorem not_settled {declared : String → List Variable} {name : String}
    (circle : Mentions declared name name) : ¬ Settled declared name := by
  intro settled
  induction settled with
  | intro name _ ih => exact ih name circle circle

namespace Sample

/-! A struct that refers to itself, and two structs that it is a part of: one before it by name and
one after it. -/

def struct (id : NodeId) (name : String) (members : List NodeId) : Node where
  id
  tag := "StructDefinition"
  src := ""
  attributes := [("name", .string name)]
  children := [("members", members)]

def member (id : NodeId) (name : String) (type : NodeId) : Node where
  id
  tag := "VariableDeclaration"
  src := ""
  attributes := [("name", .string name)]
  children := [("typeName", [type])]

def typeName (id : NodeId) (tag : String) (attributes : List (String × Json))
    (children : List (String × List NodeId)) : Node where
  id
  tag
  src := ""
  attributes
  children

def forest : Ast :=
  [⟨1, "SourceUnit", "", [], [("nodes", [2, 3, 4])]⟩, struct 2 "Ark" [5, 6],
    struct 3 "Tree" [7, 8, 9], struct 4 "Wood" [5, 6], member 5 "tree" 21, member 6 "size" 20,
    member 7 "key" 20, member 8 "value" 20, member 9 "kids" 22,
    typeName 20 "ElementaryTypeName" [("name", .string "uint256")] [],
    typeName 21 "UserDefinedTypeName"
      [("typeDescriptions", .object [("typeString", .string "struct Tree")])] [],
    typeName 22 "ArrayTypeName" [] [("baseType", [21])]].foldl Ast.put .empty

def var (id : NodeId) (name : String) (type : Ty) : Variable :=
  ⟨id, name, .stack, type, 0, false, .mutable, none⟩

def holder : List Variable :=
  [var 5 "tree" (.struct "Tree" []), var 6 "size" (.elementary "uint256")]

def tree : List Variable :=
  [var 7 "key" (.elementary "uint256"), var 8 "value" (.elementary "uint256"),
    var 9 "kids" (.array (.struct "Tree" []) none)]

def declared : String → List Variable :=
  declaredMembers forest [1] ∅

theorem definitions_forest : definitions forest [1] =
    ((Std.ExtTreeMap.empty.insert "Ark" 2).insert "Tree" 3).insert "Wood" 4 := by rfl

theorem declared_ark : declared "Ark" = holder := by rfl

theorem declared_tree : declared "Tree" = tree := by rfl

theorem declared_wood : declared "Wood" = holder := by rfl

theorem declared_cases (name : String) :
    (name = "Ark" ∨ name = "Wood") ∧ declared name = holder ∨
      name = "Tree" ∧ declared name = tree ∨
      (name ≠ "Ark" ∧ name ≠ "Wood") ∧ declared name = [] := by
  by_cases ark : name = "Ark"
  · exact Or.inl ⟨Or.inl ark, ark ▸ declared_ark⟩
  by_cases wood : name = "Wood"
  · exact Or.inl ⟨Or.inr wood, wood ▸ declared_wood⟩
  by_cases circular : name = "Tree"
  · exact Or.inr (Or.inl ⟨circular, circular ▸ declared_tree⟩)
  have unknown : (definitions forest [1])[name]? = none := by
    rw [definitions_forest]
    simp [Ne.symm ark, Ne.symm wood, Ne.symm circular]
  refine Or.inr (Or.inr ⟨⟨ark, wood⟩, ?_⟩)
  rw [declared, declaredMembers, unknown]
  rfl

theorem holds_iff (owner part : String) :
    Holds declared owner part ↔ (owner = "Ark" ∨ owner = "Wood") ∧ part = "Tree" := by
  rcases declared_cases owner with ⟨known, members⟩ | ⟨rfl, members⟩ | ⟨unknown, members⟩
  · simp [Holds, members, known, holder, var, Ty.held]
  · simp [Holds, members, tree, var, Ty.held]
  · simp [Holds, members, unknown]

theorem mentions_tree {owner part : String} (mentions : Mentions declared owner part) :
    part = "Tree" := by
  rcases declared_cases owner with ⟨_, members⟩ | ⟨_, members⟩ | ⟨_, members⟩
  · simpa [Mentions, members, holder, var, Ty.mentions] using mentions
  · simpa [Mentions, members, tree, var, Ty.mentions] using mentions
  · simp [Mentions, members] at mentions

theorem legal : Legal forest [1] ∅ where
  enumerated := by rfl
  resolvable := by
    intro name id found
    rw [definitions_forest] at found
    simp only [Std.ExtTreeMap.getElem?_insert] at found
    split at found
    · cases found
      exact ⟨holder, by rfl⟩
    · split at found
      · cases found
        exact ⟨tree, by rfl⟩
      · split at found
        · cases found
          exact ⟨holder, by rfl⟩
        · simp at found
  defined := by
    intro name other mentions
    rw [mentions_tree mentions, definitions_forest]
    simp [Std.ExtTreeMap.mem_insert]
  acyclic := by
    intro name circle
    obtain ⟨next, first, _⟩ := Relation.TransGen.head'_iff.mp circle
    obtain ⟨last, _, final⟩ := Relation.TransGen.tail'_iff.mp circle
    have same := ((holds_iff _ _).mp final).2
    rcases ((holds_iff _ _).mp first).1 with rfl | rfl <;> exact absurd same (by decide)

theorem plain (reference : String → List Variable) : Plain declared reference := by
  intro name
  rcases declared_cases name with ⟨_, members⟩ | ⟨_, members⟩ | ⟨_, members⟩ <;> rw [members]
  · simp [holder, var, Ty.Moderate]
  · simp [tree, var, Ty.Moderate]
  · exact nofun

theorem circular : ¬ Settled declared "Tree" := by
  intro settled
  have itself : Mentions declared "Tree" "Tree" := by
    rw [Mentions, declared_tree]
    exact ⟨var 9 "kids" (.array (.struct "Tree" []) none), by simp [tree], by simp [var, Ty.mentions]⟩
  exact not_settled itself settled

end Sample

end SolTrace.UserTypes
