import SolTrace.Proofs.Types.Expansion
/-!
Structs that are mentioned but not defined. The rounds fail for them as they fail for structs that
refer to themselves, and the last pass gives both a struct without members. So building never fails
for want of a definition, while resolving a type that mentions such a struct does.
-/
set_option autoImplicit false

namespace SolTrace.UserTypes

open Resolver

/-- Whether a struct is defined, and so is all that it mentions, without circles. -/
inductive Grounded (declared : String → List Variable) (defined : String → Prop) : String → Prop
  | intro {name : String} (here : defined name)
      (parts : ∀ other, Mentions declared name other → Grounded declared defined other) :
      Grounded declared defined name

/-- The members that a struct finds others to have: those of grounded structs and of structs with
smaller names. Other structs have none for it, and undefined ones never have any. -/
structure Sees (declared : String → List Variable) (defined : String → Prop) (structs : Structs)
    (name : String) (found : String → List Variable) : Prop where
  seen : ∀ other, Grounded declared defined other ∨ other < name →
    found other = membersIn structs other
  unseen : ∀ other, ¬ (Grounded declared defined other ∨ other < name) → found other = []
  undefined : ∀ other, ¬ defined other → found other = []

section

variable {declared : String → List Variable} {defined : String → Prop} {known structs : Structs}

/-- The rounds resolve a struct just if it is grounded. -/
theorem Outcome.mem_known_iff (outcome : Outcome declared defined known structs) {name : String} :
    name ∈ known ↔ Grounded declared defined name := by
  constructor
  · intro stored
    have settled := outcome.resolved.settled name stored
    induction settled with
    | intro name _ ih =>
        apply Grounded.intro (outcome.inside name stored)
        intro other mentions
        exact ih other mentions (outcome.resolved.closed name stored other mentions)
  · intro grounded
    induction grounded with
    | @intro name here _ ih =>
        by_contra unknown
        obtain ⟨other, mentions, missing⟩ := outcome.stuck name here unknown
        exact missing (ih other mentions)

theorem Outcome.membersIn_undefined (outcome : Outcome declared defined known structs)
    {name : String} (unknown : ¬ defined name) : membersIn structs name = [] := by
  have missing : name ∉ structs := mt (outcome.names name).mp unknown
  rw [membersIn, Std.ExtTreeMap.getElem?_eq_none missing]
  rfl

theorem Outcome.found (outcome : Outcome declared defined known structs) {name : String}
    (here : defined name) :
    ∃ found, structs[name]? = some ((declared name).map (Variable.fill found)) ∧
      Sees declared defined structs name found := by
  refine ⟨_, outcome.filled name here, ?_, ?_, ?_⟩
  · intro other visible
    rw [← outcome.mem_known_iff] at visible
    exact if_pos visible
  · intro other hidden
    rw [← outcome.mem_known_iff] at hidden
    exact if_neg hidden
  · intro other unknown
    by_cases visible : other ∈ known ∨ other < name
    · rw [if_pos visible, outcome.membersIn_undefined unknown]
    · exact if_neg visible

end

/-- Building does not fail for structs that are not defined. It gives every struct the members that
it declares, with a struct without members for each undefined one among them, at whatever depth.
Resolving a type afterwards fails if it mentions an undefined struct, and only then. -/
theorem ofRoots_undefined {ast : Ast} {roots : List NodeId} {enums : Enums}
    (readable : Readable ast roots enums) :
    let declared := declaredMembers ast roots enums
    ∃ types, ofRoots ast roots = .ok types ∧ types.enums = enums ∧
      (∀ name, name ∈ types.structs ↔ name ∈ definitions ast roots) ∧
      (∀ name ∈ definitions ast roots, ∃ found,
        types.structs[name]? = some ((declared name).map (Variable.fill found)) ∧
        Sees declared (· ∈ definitions ast roots) types.structs name found) ∧
      ∀ id type, (bare ast enums).resolve id = .ok type →
        Follows (∀ other ∈ type.mentions, other ∈ definitions ast roots)
          (type.fill (membersIn types.structs)) ((Resolver.mk ast types false).resolve id) := by
  intro declared
  obtain ⟨types, known, made, rfl, outcome⟩ := readable.outcome
  refine ⟨types, made, rfl, outcome.names, fun name here => outcome.found here, ?_⟩
  intro id type resolved
  have follows : Follows (Knows types.structs false type.mentions)
      (type.fill (membersIn types.structs)) ((Resolver.mk ast types false).resolve id) :=
    resolveWithin_follows _ resolved
  apply follows.congr
  simp only [Knows, Bool.false_eq_true, false_or, outcome.names]

namespace Sample

/-! A struct with a member whose type is nowhere defined. -/

def lidless : Ast :=
  [⟨1, "SourceUnit", "", [], [("nodes", [2])]⟩, struct 2 "Box" [3, 4], member 3 "lid" 5,
    member 4 "size" 6,
    typeName 5 "UserDefinedTypeName"
      [("typeDescriptions", .object [("typeString", .string "struct Lid")])] [],
    typeName 6 "ElementaryTypeName" [("name", .string "uint256")] []].foldl Ast.put .empty

def boxed : List Variable :=
  [var 3 "lid" (.struct "Lid" []), var 4 "size" (.elementary "uint256")]

theorem definitions_lidless : definitions lidless [1] = Std.ExtTreeMap.empty.insert "Box" 2 := by
  rfl

theorem readable : Readable lidless [1] ∅ where
  enumerated := by rfl
  resolvable := by
    intro name id found
    rw [definitions_lidless, Std.ExtTreeMap.getElem?_insert] at found
    split at found
    · cases found
      exact ⟨boxed, by rfl⟩
    · simp at found

end Sample

/-- The struct is built, with a lid of one slot; a variable of the type of the lid is an error. -/
theorem ofRoots_undefined_lid :
    ∃ types, ofRoots Sample.lidless [1] = .ok types ∧ types.structs["Box"]? = some Sample.boxed ∧
      ∃ text, (Resolver.mk Sample.lidless types false).resolve 5 =
        .error (.unknownUserType text) := by
  obtain ⟨types, made, -, -, stored, resolves⟩ := ofRoots_undefined Sample.readable
  have defined : ∀ name, name ∈ definitions Sample.lidless [1] ↔ name = "Box" := by
    intro name
    rw [Sample.definitions_lidless, Std.ExtTreeMap.mem_insert, Std.LawfulEqCmp.compare_eq_iff_eq]
    simp [eq_comm]
  obtain ⟨found, box, finds⟩ := stored "Box" ((defined "Box").mpr rfl)
  have lid : found "Lid" = [] := finds.undefined "Lid" (by rw [defined]; decide)
  have declared : declaredMembers Sample.lidless [1] ∅ "Box" = Sample.boxed := by rfl
  refine ⟨types, made, ?_, ?_⟩
  · rw [box, declared]
    simp [Sample.boxed, Sample.var, Variable.fill, Variable.retype, Ty.fill, lid]
  · apply (resolves 5 (.struct "Lid" []) (by rfl)).missing
    intro all
    exact absurd ((defined "Lid").mp (all "Lid" List.mem_cons_self)) (by decide)

end SolTrace.UserTypes
