import SolTrace.UserTypes
/-!
References between structs: which structs a type mentions, and what resolving it against some known
structs gives. A type is first resolved against no structs at all; what it is against others is that
type with the members of the known ones filled in.
-/
set_option autoImplicit false

namespace SolTrace

/-! ### Types -/

namespace Ty

/-- The structs that a type mentions. -/
def mentions : Ty → List String
  | .elementary _ => []
  | .array base _ => base.mentions
  | .mapping key value => key.mentions ++ value.mentions
  | .struct name _ => [name]
  | .enum _ _ => []

/-- The structs that are part of the values of a type. Mappings and dynamic arrays only refer to
what they hold. -/
def held : Ty → List String
  | .array base (some _) => base.held
  | .struct name _ => [name]
  | _ => []

/-- Gives members to all structs that a type mentions. -/
def fill (members : String → List Variable) : Ty → Ty
  | .elementary name => .elementary name
  | .array base length => .array (base.fill members) length
  | .mapping key value => .mapping (key.fill members) (value.fill members)
  | .struct name _ => .struct name (members name)
  | .enum name values => .enum name values

theorem held_subset_mentions (type : Ty) : ∀ name ∈ type.held, name ∈ type.mentions := by
  fun_induction held type with
  | case1 base length ih => exact ih
  | case2 name members => exact fun _ member => member
  | case3 => exact fun _ member => nomatch member

/-- Only the members of the structs that are mentioned count. -/
theorem fill_congr {members others : String → List Variable} (type : Ty)
    (same : ∀ name ∈ type.mentions, members name = others name) :
    type.fill members = type.fill others := by
  fun_induction mentions type with
  | case1 name => rfl
  | case2 base length ih => rw [fill, fill, ih same]
  | case3 key value first second =>
      rw [fill, fill, first fun name member => same name (List.mem_append_left _ member),
        second fun name member => same name (List.mem_append_right _ member)]
  | case4 name _ => rw [fill, fill, same name List.mem_cons_self]
  | case5 name values => rfl

end Ty

def Variable.retype (make : Ty → Ty) (var : Variable) : Variable :=
  { var with type := make var.type }

def Variable.fill (members : String → List Variable) : Variable → Variable :=
  Variable.retype (Ty.fill members)

theorem fill_map_congr {members others : String → List Variable} (vars : List Variable)
    (same : ∀ var ∈ vars, ∀ name ∈ var.type.mentions, members name = others name) :
    vars.map (Variable.fill members) = vars.map (Variable.fill others) := by
  refine List.map_congr_left fun var member => ?_
  rw [Variable.fill, Variable.fill, Variable.retype, Variable.retype,
    Ty.fill_congr _ (same var member)]

/-! ### Results that depend on what is known -/

/-- Whether a result is the expected one if all that it needs is known, and otherwise the error that
a type is not known. -/
structure Follows {α : Type} (known : Prop) (expected : α) (result : Except Error α) : Prop where
  found : known → result = .ok expected
  missing : ¬ known → ∃ text, result = .error (.unknownUserType text)

namespace Follows

variable {α β : Type} {known other : Prop} {expected : α} {result : Except Error α}

theorem ok (expected : α) : Follows True expected (.ok expected) :=
  ⟨fun _ => rfl, fun impossible => absurd trivial impossible⟩

theorem congr (follows : Follows known expected result) (same : other ↔ known) :
    Follows other expected result :=
  ⟨fun holds => follows.found (same.mp holds), fun fails => follows.missing (mt same.mpr fails)⟩

theorem bind {next : α → Except Error β} {final : β} (first : Follows known expected result)
    (second : Follows other final (next expected)) :
    Follows (known ∧ other) final (result >>= next) := by
  constructor
  · rintro ⟨here, there⟩
    rw [first.found here, ok_bind, second.found there]
  · intro fails
    by_cases here : known
    · rw [first.found here, ok_bind]
      exact second.missing fun there => fails ⟨here, there⟩
    · obtain ⟨text, failed⟩ := first.missing here
      exact ⟨text, by rw [failed]; rfl⟩

theorem map (follows : Follows known expected result) (make : α → β) :
    Follows known (make expected) (do return make (← result)) :=
  (follows.bind (ok (make expected))).congr (and_true known).symm.to_iff

end Follows

/-! ### Resolution -/

abbrev Enums := Std.ExtTreeMap String (List String)

abbrev Structs := Std.ExtTreeMap String (List Variable)

namespace Resolver

/-- Resolves against no structs; all that are mentioned get placeholders. -/
def bare (ast : Ast) (enums : Enums) : Resolver :=
  ⟨ast, ⟨∅, enums⟩, true⟩

/-- The members that a struct is known to have. -/
def membersIn (structs : Structs) (name : String) : List Variable :=
  (structs[name]?).getD []

/-- Whether structs are known or get placeholders. -/
def Knows (structs : Structs) (placeholders : Bool) (names : List String) : Prop :=
  placeholders = true ∨ ∀ name ∈ names, name ∈ structs

section

variable {ast : Ast} {enums : Enums} {structs : Structs} {placeholders : Bool}

theorem knows_append (names others : List String) :
    Knows structs placeholders (names ++ others) ↔
      Knows structs placeholders names ∧ Knows structs placeholders others := by
  unfold Knows
  constructor
  · rintro (given | known)
    · exact ⟨Or.inl given, Or.inl given⟩
    · exact ⟨Or.inr fun name member => known name (List.mem_append_left _ member),
        Or.inr fun name member => known name (List.mem_append_right _ member)⟩
  · rintro ⟨given | first, given | second⟩ <;> try exact Or.inl given
    refine Or.inr fun name member => ?_
    rcases List.mem_append.mp member with member | member
    · exact first name member
    · exact second name member

theorem knows_nil : Knows structs placeholders [] :=
  Or.inr nofun

/-- Without structs in it a type is the same whatever is known. -/
theorem follows_plain {type : Ty} (plain : type.mentions = [])
    (same : type.fill (membersIn structs) = type) :
    Follows (Knows structs placeholders type.mentions) (type.fill (membersIn structs))
      (.ok type) := by
  rw [same, plain]
  exact (Follows.ok type).congr (iff_true_intro knows_nil)

theorem named_follows {text : String} {type : Ty}
    (named : (bare ast enums).named text = .ok type) :
    Follows (Knows structs placeholders type.mentions) (type.fill (membersIn structs))
      ((Resolver.mk ast ⟨structs, enums⟩ placeholders).named text) := by
  unfold Resolver.named at named ⊢
  dsimp only [bare] at named ⊢
  split at named
  · -- a struct
    simp only [Std.ExtTreeMap.getElem?_empty, ↓reduceIte] at named
    cases named
    simp only [Ty.mentions, Ty.fill, membersIn, Knows, List.mem_singleton, forall_eq]
    split
    · rename_i members found
      rw [found]
      exact (Follows.ok _).congr (iff_true_intro (Or.inr
        (Std.ExtTreeMap.mem_iff_isSome_getElem?.mpr (Option.isSome_of_eq_some found))))
    · rename_i missing
      rw [missing]
      cases placeholders with
      | true => exact (Follows.ok _).congr (iff_true_intro (Or.inl rfl))
      | false =>
          refine ⟨fun known => ?_, fun _ => ⟨text, rfl⟩⟩
          have stored := Std.ExtTreeMap.mem_iff_isSome_getElem?.mp
            (known.resolve_left Bool.false_ne_true)
          rw [missing] at stored
          cases stored
  · -- an enum
    split at named
    · cases named
      exact follows_plain rfl rfl
    · cases named
  · cases named
    exact follows_plain rfl rfl
  · cases named
    exact follows_plain rfl rfl
  · cases named

theorem elementary_plain {node : Node} {type : Ty} (made : elementary node = .ok type) :
    ∃ name, type = .elementary name := by
  unfold elementary at made
  split at made
  · cases made
  · rename_i name _
    generalize read : (if (Elementary.after? "address" name.toList).isSome then "address"
      else name) = name at made
    dsimp only at made
    split at made
    · cases made
      exact ⟨name, rfl⟩
    · cases made

/-- A type name, by induction on the levels of type names in it. -/
theorem resolveWithin_follows (depth : Nat) :
    ∀ {id : NodeId} {type : Ty}, (bare ast enums).resolveWithin depth id = .ok type →
      Follows (Knows structs placeholders type.mentions) (type.fill (membersIn structs))
        ((Resolver.mk ast ⟨structs, enums⟩ placeholders).resolveWithin depth id) := by
  induction depth with
  | zero => intro id type resolved; cases resolved
  | succ depth ih =>
      intro id type resolved
      obtain ⟨node, found, resolved⟩ := bind_eq_ok.mp resolved
      have stored : ast.node id = .ok node := found
      unfold resolveWithin
      rw [stored, ok_bind]
      split at resolved
      · -- an elementary type
        obtain ⟨name, rfl⟩ := elementary_plain resolved
        rw [resolved]
        exact follows_plain rfl rfl
      · -- an array
        split at resolved
        · cases resolved
        · obtain ⟨base, inner, made⟩ := bind_eq_ok.mp resolved
          cases made
          exact (ih inner).map fun type => Ty.array type ((bare ast enums).arrayLength? node)
      · -- a mapping
        split at resolved
        · obtain ⟨key, first, rest⟩ := bind_eq_ok.mp resolved
          obtain ⟨value, second, made⟩ := bind_eq_ok.mp rest
          cases made
          exact ((ih first).bind ((ih second).map _)).congr (knows_append _ _)
        · cases resolved
      · -- a function
        cases resolved
        exact follows_plain rfl rfl
      · -- a struct, an enum or a contract
        split at resolved
        · exact named_follows resolved
        · cases resolved
      · cases resolved

theorem declared_follows {node : Node} {var : Variable}
    (declared : (bare ast enums).declared node = .ok var) :
    Follows (Knows structs placeholders var.type.mentions) (var.fill (membersIn structs))
      ((Resolver.mk ast ⟨structs, enums⟩ placeholders).declared node) := by
  unfold Resolver.declared at declared ⊢
  cases child : node.child? "typeName" with
  | none =>
      simp only [child] at declared
      obtain ⟨_, missing, _⟩ := bind_eq_ok.mp declared
      cases missing
  | some id =>
      simp only [child] at declared ⊢
      obtain ⟨type, resolved, made⟩ := bind_eq_ok.mp declared
      cases made
      have typed : Follows (Knows structs placeholders type.mentions)
          (type.fill (membersIn structs))
          ((Resolver.mk ast ⟨structs, enums⟩ placeholders).resolve id) :=
        resolveWithin_follows _ resolved
      let typedBy (type : Ty) : Variable := {
        id := node.id
        name := node.name
        location := location node
        type
        scope := node.scope?.getD 0
        state := node.flag "stateVariable"
        mutability := mutability node
        value := if mutability node = .constant then (bare ast enums).literal? node else none }
      exact typed.map typedBy

/-- The members of a struct are those that it has against no structs, filled in with the members
that are known; and there is no result if one of the structs that they mention is not known. -/
theorem members_follows {id : NodeId} {vars : List Variable}
    (members : (bare ast enums).members id = .ok vars) :
    Follows (∀ var ∈ vars, Knows structs placeholders var.type.mentions)
      (vars.map (Variable.fill (membersIn structs)))
      ((Resolver.mk ast ⟨structs, enums⟩ placeholders).members id) := by
  obtain ⟨node, found, listed⟩ := bind_eq_ok.mp members
  have stored : ast.node id = .ok node := found
  unfold Resolver.members
  rw [stored, ok_bind]
  clear members
  generalize node.field "members" = ids at listed ⊢
  induction ids generalizing vars with
  | nil =>
      cases listed
      exact (Follows.ok _).congr (by simp)
  | cons id ids ih =>
      rw [List.mapM_cons] at listed ⊢
      obtain ⟨var, first, rest⟩ := bind_eq_ok.mp listed
      obtain ⟨others, second, made⟩ := bind_eq_ok.mp rest
      cases made
      obtain ⟨member, inside, declared⟩ := bind_eq_ok.mp first
      have inside : ast.node id = .ok member := inside
      have head : Follows (Knows structs placeholders var.type.mentions)
          (var.fill (membersIn structs))
          ((Resolver.mk ast ⟨structs, enums⟩ placeholders).declared member) :=
        declared_follows declared
      simp only [inside, ok_bind]
      exact (head.bind ((ih second).map _)).congr List.forall_mem_cons

end

end Resolver

end SolTrace
