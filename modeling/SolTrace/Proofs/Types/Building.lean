import SolTrace.Proofs.Types.References
import Mathlib.Logic.Relation
import Mathlib.Data.String.Basic
/-!
Building the structs of a compilation. The rounds resolve the structs whose references come to an
end, each with all that it mentions. The others are resolved in the order of their names: each finds
the structs before it, and those after it have no members then.
-/
set_option autoImplicit false

namespace SolTrace.UserTypes

open Resolver

/-! ### Declarations -/

/-- The members that the definition of a struct declares, with no members for structs in them. -/
def declaredMembers (ast : Ast) (roots : List NodeId) (enums : Enums) (name : String) :
    List Variable :=
  (((definitions ast roots)[name]?).bind fun id => ((bare ast enums).members id).toOption).getD []

section

variable (declared : String → List Variable)

/-- Whether a struct mentions another one anywhere in its members' types. -/
def Mentions (name other : String) : Prop :=
  ∃ var ∈ declared name, other ∈ var.type.mentions

/-- Whether a struct has another one as a part. -/
def Holds (name other : String) : Prop :=
  ∃ var ∈ declared name, other ∈ var.type.held

/-- Whether following what a struct mentions always comes to an end. -/
def Settled (name : String) : Prop :=
  Acc (fun other name => Mentions declared name other) name

variable {declared}

theorem Holds.mentions {name other : String} (holds : Holds declared name other) :
    Mentions declared name other := by
  obtain ⟨var, member, held⟩ := holds
  exact ⟨var, member, var.type.held_subset_mentions other held⟩

end

/-- Whether the definitions below the roots are those of a program: enums and member types resolve,
structs are defined, and no struct is a part of itself. References may run in circles. -/
structure Legal (ast : Ast) (roots : List NodeId) (enums : Enums) : Prop where
  enumerated : enumsOf ast roots = .ok enums
  resolvable : ∀ (name : String) (id : NodeId), (definitions ast roots)[name]? = some id →
    ∃ members, (bare ast enums).members id = .ok members
  defined : ∀ name other, Mentions (declaredMembers ast roots enums) name other →
    other ∈ definitions ast roots
  acyclic : ∀ name, ¬ Relation.TransGen (Holds (declaredMembers ast roots enums)) name name

/-- Whether the definitions below the roots can be read: enums resolve, and so do member types when
all structs that they mention are taken for granted, defined or not. -/
structure Readable (ast : Ast) (roots : List NodeId) (enums : Enums) : Prop where
  enumerated : enumsOf ast roots = .ok enums
  resolvable : ∀ (name : String) (id : NodeId), (definitions ast roots)[name]? = some id →
    ∃ members, (bare ast enums).members id = .ok members

theorem Legal.readable {ast : Ast} {roots : List NodeId} {enums : Enums}
    (legal : Legal ast roots enums) : Readable ast roots enums :=
  ⟨legal.enumerated, legal.resolvable⟩

/-! ### The rounds -/

/-- Whether structs are only known together with all that they mention, and have the members that
they declare, filled in. -/
structure Resolved (declared : String → List Variable) (structs : Structs) : Prop where
  closed : ∀ name ∈ structs, ∀ other, Mentions declared name other → other ∈ structs
  filled : ∀ name ∈ structs,
    structs[name]? = some ((declared name).map (Variable.fill (membersIn structs)))
  settled : ∀ name ∈ structs, Settled declared name

theorem membersIn_insert {structs : Structs} {name : String} (members : List Variable)
    {other : String} (differs : other ≠ name) :
    membersIn (structs.insert name members) other = membersIn structs other := by
  unfold membersIn
  rw [Std.ExtTreeMap.getElem?_insert, if_neg]
  simpa [Std.LawfulEqCmp.compare_eq_iff_eq] using differs.symm

section

variable {ast : Ast} {enums : Enums} {declared : String → List Variable} {structs : Structs}

theorem Resolved.empty : Resolved declared ∅ :=
  ⟨by simp, by simp, by simp⟩

/-- A new struct whose mentions are known. Those that are known do not mention it. -/
theorem Resolved.insert (resolved : Resolved declared structs) {name : String}
    (new : name ∉ structs) (known : ∀ other, Mentions declared name other → other ∈ structs) :
    Resolved declared
      (structs.insert name ((declared name).map (Variable.fill (membersIn structs)))) := by
  have same : ∀ {owner : String}, (∀ other, Mentions declared owner other → other ∈ structs) →
      (declared owner).map (Variable.fill (membersIn structs)) =
        (declared owner).map (Variable.fill (membersIn
          (structs.insert name ((declared name).map (Variable.fill (membersIn structs)))))) := by
    intro owner inside
    refine fill_map_congr _ fun var member other mentioned => (membersIn_insert _ ?_).symm
    rintro rfl
    exact new (inside _ ⟨var, member, mentioned⟩)
  constructor
  · intro owner inside other mentions
    rw [Std.ExtTreeMap.mem_insert, Std.LawfulEqCmp.compare_eq_iff_eq] at inside ⊢
    rcases inside with rfl | inside
    · exact Or.inr (known other mentions)
    · exact Or.inr (resolved.closed owner inside other mentions)
  · intro owner inside
    rw [Std.ExtTreeMap.mem_insert, Std.LawfulEqCmp.compare_eq_iff_eq] at inside
    rw [Std.ExtTreeMap.getElem?_insert]
    by_cases own : name = owner
    · subst own
      rw [if_pos Std.ReflCmp.compare_self, ← same known]
    · rw [if_neg (by simpa [Std.LawfulEqCmp.compare_eq_iff_eq] using own),
        resolved.filled owner (inside.resolve_left own),
        same (resolved.closed owner (inside.resolve_left own))]
  · intro owner inside
    rw [Std.ExtTreeMap.mem_insert, Std.LawfulEqCmp.compare_eq_iff_eq] at inside
    rcases inside with rfl | inside
    · exact Acc.intro _ fun other mentions => resolved.settled other (known other mentions)
    · exact resolved.settled owner inside

/-- Whether the definitions of structs declare the given members. -/
def Declares (ast : Ast) (enums : Enums) (declared : String → List Variable)
    (pending : List (String × NodeId)) : Prop :=
  ∀ entry ∈ pending, (bare ast enums).members entry.2 = .ok (declared entry.1)

/-- What resolving a struct without placeholders gives. -/
theorem members_known (structs : Structs) {name : String} {id : NodeId}
    (declares : (bare ast enums).members id = .ok (declared name)) :
    Follows (∀ other, Mentions declared name other → other ∈ structs)
      ((declared name).map (Variable.fill (membersIn structs)))
      ((Resolver.mk ast ⟨structs, enums⟩ false).members id) := by
  refine (members_follows declares).congr ?_
  constructor
  · intro known var member
    exact Or.inr fun other mentioned => known other ⟨var, member, mentioned⟩
  · rintro known other ⟨var, member, mentioned⟩
    exact (known var member).resolve_left Bool.false_ne_true other mentioned

/-- What a pass over pending structs leaves: those that are not left are resolved. -/
structure Passed (declared : String → List Variable) (pending left : List (String × NodeId))
    (before after : Structs) : Prop where
  resolved : Resolved declared after
  sublist : left.Sublist pending
  names : ∀ name, name ∈ after ↔
    name ∈ before ∨ name ∈ pending.map Prod.fst ∧ name ∉ left.map Prod.fst

theorem Passed.trans {pending left last : List (String × NodeId)} {before after final : Structs}
    (first : Passed declared pending left before after)
    (second : Passed declared left last after final) : Passed declared pending last before final := by
  refine ⟨second.resolved, second.sublist.trans first.sublist, fun name => ?_⟩
  have fewer : name ∈ last.map Prod.fst → name ∈ left.map Prod.fst :=
    fun inside => (second.sublist.map Prod.fst).subset inside
  have inside : name ∈ left.map Prod.fst → name ∈ pending.map Prod.fst :=
    fun inside => (first.sublist.map Prod.fst).subset inside
  rw [second.names, first.names]
  tauto

/-- What is left by a pass is not known after it. -/
theorem Passed.new {pending left : List (String × NodeId)} {before after : Structs}
    (passed : Passed declared pending left before after)
    (new : ∀ entry ∈ pending, entry.1 ∉ before) : ∀ entry ∈ left, entry.1 ∉ after := by
  intro entry inside stored
  rcases (passed.names entry.1).mp stored with stored | ⟨_, out⟩
  · exact new entry (passed.sublist.subset inside) stored
  · exact out (List.mem_map_of_mem inside)

/-- One round. If it resolves nothing, each struct mentions one that is not known. -/
theorem resolveKnown_passed (pending : List (String × NodeId)) :
    ∀ {structs : Structs}, Resolved declared structs → Declares ast enums declared pending →
      (pending.map Prod.fst).Nodup → (∀ entry ∈ pending, entry.1 ∉ structs) →
      ∃ left after, resolveKnown ast pending ⟨structs, enums⟩ = .ok (left, ⟨after, enums⟩) ∧
        Passed declared pending left structs after ∧
        (left.length = pending.length →
          ∀ entry ∈ pending, ∃ other, Mentions declared entry.1 other ∧ other ∉ structs) := by
  induction pending with
  | nil =>
      intro structs resolved _ _ _
      exact ⟨[], structs, rfl, ⟨resolved, .slnil, by simp⟩, fun _ => nofun⟩
  | cons entry rest ih =>
      obtain ⟨name, id⟩ := entry
      intro structs resolved declares distinct new
      have here := members_known structs (declares (name, id) List.mem_cons_self)
      have later : Declares ast enums declared rest :=
        fun other inside => declares other (List.mem_cons_of_mem _ inside)
      obtain ⟨once, distinct⟩ := List.nodup_cons.mp distinct
      by_cases known : ∀ other, Mentions declared name other → other ∈ structs
      · have fresh : name ∉ structs := new (name, id) List.mem_cons_self
        have unmet : ∀ other ∈ rest, other.1 ∉
            structs.insert name ((declared name).map (Variable.fill (membersIn structs))) := by
          intro other inside
          rw [Std.ExtTreeMap.mem_insert, Std.LawfulEqCmp.compare_eq_iff_eq]
          rintro (rfl | stored)
          · exact once (List.mem_map.mpr ⟨other, inside, rfl⟩)
          · exact new other (List.mem_cons_of_mem _ inside) stored
        obtain ⟨left, after, made, ⟨done, sublist, names⟩, _⟩ :=
          ih (resolved.insert fresh known) later distinct unmet
        refine ⟨left, after, ?_, ⟨done, sublist.cons _, ?_⟩, ?_⟩
        · rw [resolveKnown, here.found known]
          exact made
        · intro other
          have kept : name ∉ left.map Prod.fst :=
            fun inside => once ((sublist.map Prod.fst).subset inside)
          rw [names, Std.ExtTreeMap.mem_insert, Std.LawfulEqCmp.compare_eq_iff_eq, List.map_cons,
            List.mem_cons]
          constructor
          · rintro ((rfl | stored) | ⟨inside, out⟩)
            · exact Or.inr ⟨Or.inl rfl, kept⟩
            · exact Or.inl stored
            · exact Or.inr ⟨Or.inr inside, out⟩
          · rintro (stored | ⟨rfl | inside, out⟩)
            · exact Or.inl (Or.inr stored)
            · exact Or.inl (Or.inl rfl)
            · exact Or.inr ⟨inside, out⟩
        · intro all
          have shorter := sublist.length_le
          rw [List.length_cons] at all
          omega
      · obtain ⟨text, failed⟩ := here.missing known
        obtain ⟨left, after, made, ⟨done, sublist, names⟩, stuck⟩ :=
          ih resolved later distinct fun other inside => new other (List.mem_cons_of_mem _ inside)
        refine ⟨(name, id) :: left, after, ?_, ⟨done, sublist.cons_cons _, ?_⟩, ?_⟩
        · rw [resolveKnown, failed]
          simp only [made, ok_bind]
          rfl
        · intro other
          rw [names, List.map_cons, List.map_cons, List.mem_cons, List.mem_cons, not_or]
          constructor
          · rintro (stored | ⟨inside, out⟩)
            · exact Or.inl stored
            · refine Or.inr ⟨Or.inr inside, ?_, out⟩
              rintro rfl
              exact once inside
          · rintro (stored | ⟨rfl | inside, differs, out⟩)
            · exact Or.inl stored
            · exact absurd rfl differs
            · exact Or.inr ⟨inside, out⟩
        · intro all other inside
          rcases List.mem_cons.mp inside with rfl | inside
          · simpa using known
          · exact stuck (Nat.succ.inj all) other inside

/-- The rounds go on until one resolves nothing. What is left mentions structs that are not
known. -/
theorem settle_passed (rounds : Nat) :
    ∀ (pending : List (String × NodeId)) (structs : Structs), pending.length ≤ rounds →
      Resolved declared structs → Declares ast enums declared pending →
      (pending.map Prod.fst).Nodup → (∀ entry ∈ pending, entry.1 ∉ structs) →
      ∃ left after, settle ast rounds pending ⟨structs, enums⟩ = .ok (left, ⟨after, enums⟩) ∧
        Passed declared pending left structs after ∧
        ∀ entry ∈ left, ∃ other, Mentions declared entry.1 other ∧ other ∉ after := by
  induction rounds with
  | zero =>
      intro pending structs few resolved _ _ _
      have none : pending = [] := List.length_eq_zero_iff.mp (Nat.le_zero.mp few)
      subst none
      exact ⟨[], structs, rfl, ⟨resolved, .slnil, by simp⟩, nofun⟩
  | succ rounds ih =>
      intro pending structs few resolved declares distinct new
      obtain ⟨left, after, made, passed, stuck⟩ :=
        resolveKnown_passed pending resolved declares distinct new
      simp only [settle, made, ok_bind]
      by_cases all : left.length = pending.length
      · refine ⟨left, after, by rw [if_pos all]; rfl, passed, ?_⟩
        have same : left = pending := passed.sublist.eq_of_length all
        intro entry inside
        obtain ⟨other, mentions, unknown⟩ := stuck all entry (same ▸ inside)
        refine ⟨other, mentions, fun stored => unknown ?_⟩
        rcases (passed.names other).mp stored with stored | ⟨inside, out⟩
        · exact stored
        · exact absurd (same ▸ inside) out
      · have shorter := passed.sublist.length_le
        obtain ⟨last, final, rest, done, ends⟩ := ih left after (by omega) passed.resolved
          (fun entry inside => declares entry (passed.sublist.subset inside))
          ((passed.sublist.map Prod.fst).nodup distinct) (passed.new new)
        exact ⟨last, final, by rw [if_neg all]; exact rest, passed.trans done, ends⟩

/-! ### The structs that are left -/

/-- The last pass. Each struct finds those that were known before and those of smaller names. -/
theorem resolveRecursive_filled (pending : List (String × NodeId)) :
    ∀ structs : Structs, Declares ast enums declared pending →
      (pending.map Prod.fst).Pairwise (· < ·) → (∀ entry ∈ pending, entry.1 ∉ structs) →
      ∃ after, resolveRecursive ast pending ⟨structs, enums⟩ = .ok ⟨after, enums⟩ ∧
        (∀ name, name ∉ pending.map Prod.fst → after[name]? = structs[name]?) ∧
        ∀ entry ∈ pending, after[entry.1]? = some ((declared entry.1).map
          (Variable.fill fun other =>
            if other ∈ structs ∨ other < entry.1 then membersIn after other else [])) := by
  induction pending with
  | nil =>
      intro structs _ _ _
      exact ⟨structs, rfl, fun _ _ => rfl, nofun⟩
  | cons entry rest ih =>
      obtain ⟨name, id⟩ := entry
      intro structs declares ordered new
      have resolved : (Resolver.mk ast ⟨structs, enums⟩ true).members id =
          .ok ((declared name).map (Variable.fill (membersIn structs))) :=
        (members_follows (declares (name, id) List.mem_cons_self)).found
          fun _ _ => Or.inl rfl
      obtain ⟨above, ordered⟩ := List.pairwise_cons.mp ordered
      have fresh : name ∉ structs := new (name, id) List.mem_cons_self
      have later : ∀ other ∈ rest, name < other.1 :=
        fun other inside => above other.1 (List.mem_map_of_mem inside)
      generalize filled : (declared name).map (Variable.fill (membersIn structs)) = members
        at resolved
      have stored : ∀ other, other ∈ structs.insert name members ↔ name = other ∨ other ∈ structs := by
        intro other
        rw [Std.ExtTreeMap.mem_insert, Std.LawfulEqCmp.compare_eq_iff_eq]
      obtain ⟨after, made, kept, found⟩ := ih (structs.insert name members)
        (fun other inside => declares other (List.mem_cons_of_mem _ inside)) ordered (by
          intro other inside known
          rcases (stored other.1).mp known with same | known
          · exact absurd same (later other inside).ne
          · exact new other (List.mem_cons_of_mem _ inside) known)
      have outside : ∀ other, other ≤ name → other ∉ rest.map Prod.fst := by
        intro other small inside
        exact absurd (above other inside) (not_lt.mpr small)
      have unchanged : ∀ other, other ≠ name → other ∉ rest.map Prod.fst →
          after[other]? = structs[other]? := by
        intro other differs out
        rw [kept other out, Std.ExtTreeMap.getElem?_insert, if_neg]
        simpa [Std.LawfulEqCmp.compare_eq_iff_eq] using differs.symm
      refine ⟨after, ?_, ?_, ?_⟩
      · rw [resolveRecursive, resolved, ok_bind]
        exact made
      · intro other out
        rw [List.map_cons, List.mem_cons, not_or] at out
        exact unchanged other out.1 out.2
      · intro entry inside
        rcases List.mem_cons.mp inside with rfl | inside
        · rw [kept name (outside name le_rfl), Std.ExtTreeMap.getElem?_insert_self, ← filled]
          refine congrArg some (fill_map_congr _ fun var _ other _ => ?_)
          by_cases known : other ∈ structs
          · have out : other ∉ rest.map Prod.fst := by
              intro inside
              obtain ⟨entry, member, rfl⟩ := List.mem_map.mp inside
              exact new entry (List.mem_cons_of_mem _ member) known
            rw [if_pos (Or.inl known), membersIn, membersIn,
              unchanged other (fun same => fresh (same ▸ known)) out]
          · -- what is not stored has no members, now or when smaller names are through
            have missing := Std.ExtTreeMap.getElem?_eq_none known
            by_cases small : other < name
            · rw [if_pos (Or.inr small), membersIn, membersIn,
                unchanged other small.ne (outside other small.le)]
            · rw [if_neg (not_or.mpr ⟨known, small⟩), membersIn, missing]
              rfl
        · rw [found entry inside]
          refine congrArg some (fill_map_congr _ fun var _ other _ => ?_)
          have same : (other ∈ structs.insert name members ∨ other < entry.1) ↔
              (other ∈ structs ∨ other < entry.1) := by
            rw [stored]
            constructor
            · rintro ((rfl | known) | small)
              · exact Or.inr (later entry inside)
              · exact Or.inl known
              · exact Or.inr small
            · rintro (known | small)
              · exact Or.inl (Or.inr known)
              · exact Or.inr small
          simp only [same]

end

/-! ### All structs -/

/-- What building comes to. The structs that the rounds resolve are known, together with all that
they mention; the others mention one that is not known. Each finds the known ones and those of
smaller names, and for any other it has a struct without members. -/
structure Outcome (declared : String → List Variable) (defined : String → Prop)
    (known structs : Structs) : Prop where
  resolved : Resolved declared known
  inside : ∀ name ∈ known, defined name
  stuck : ∀ name, defined name → name ∉ known → ∃ other, Mentions declared name other ∧ other ∉ known
  names : ∀ name, name ∈ structs ↔ defined name
  filled : ∀ name, defined name → structs[name]? = some ((declared name).map (Variable.fill
    fun other => if other ∈ known ∨ other < name then membersIn structs other else []))

section

variable {ast : Ast} {roots : List NodeId} {enums : Enums}

theorem Readable.declares (readable : Readable ast roots enums) :
    Declares ast enums (declaredMembers ast roots enums) (definitions ast roots).toList := by
  intro entry inside
  have found := Std.ExtTreeMap.mem_toList_iff_getElem?_eq_some.mp inside
  obtain ⟨members, resolved⟩ := readable.resolvable entry.1 entry.2 found
  rw [declaredMembers, found, Option.bind_some, resolved]
  rfl

/-- Building succeeds whether or not all structs that are mentioned are defined. -/
theorem Readable.outcome (readable : Readable ast roots enums) :
    ∃ types known, ofRoots ast roots = .ok types ∧ types.enums = enums ∧
      Outcome (declaredMembers ast roots enums) (· ∈ definitions ast roots) known
        types.structs := by
  have ordered : ((definitions ast roots).toList.map Prod.fst).Pairwise (· < ·) := by
    refine List.pairwise_map.mpr (Std.ExtTreeMap.ordered_keys_toList.imp ?_)
    exact fun smaller => compare_lt_iff_lt.mp smaller
  have listed : ∀ name, name ∈ (definitions ast roots).toList.map Prod.fst ↔
      name ∈ definitions ast roots := by
    intro name
    rw [Std.ExtTreeMap.map_fst_toList_eq_keys, Std.ExtTreeMap.mem_keys]
  obtain ⟨left, known, rounds, passed, stuck⟩ := settle_passed _
    (definitions ast roots).toList ∅ le_rfl Resolved.empty readable.declares
    (ordered.imp ne_of_lt) (by simp)
  obtain ⟨after, last, kept, filled⟩ := resolveRecursive_filled left known
    (fun entry inside => readable.declares entry (passed.sublist.subset inside))
    (ordered.sublist (passed.sublist.map Prod.fst)) (passed.new (by simp))
  have split : ∀ name, name ∈ known ↔
      name ∈ definitions ast roots ∧ name ∉ left.map Prod.fst := by
    intro name
    rw [passed.names, listed]
    simp
  refine ⟨⟨after, enums⟩, known, ?_, rfl, ⟨passed.resolved, ?_, ?_, ?_, ?_⟩⟩
  · simp only [ofRoots, readable.enumerated, ok_bind, rounds]
    exact last
  · exact fun name stored => ((split name).mp stored).1
  · intro name defined unknown
    have inside : name ∈ left.map Prod.fst := by
      by_contra out
      exact unknown ((split name).mpr ⟨defined, out⟩)
    obtain ⟨entry, member, rfl⟩ := List.mem_map.mp inside
    exact stuck entry member
  · intro name
    rw [Std.ExtTreeMap.mem_iff_isSome_getElem?]
    by_cases inside : name ∈ left.map Prod.fst
    · obtain ⟨entry, member, rfl⟩ := List.mem_map.mp inside
      rw [filled entry member]
      exact iff_of_true rfl ((listed _).mp ((passed.sublist.map Prod.fst).subset inside))
    · rw [kept name inside, ← Std.ExtTreeMap.mem_iff_isSome_getElem?, split]
      exact and_iff_left inside
  · intro name defined
    by_cases inside : name ∈ left.map Prod.fst
    · obtain ⟨entry, member, rfl⟩ := List.mem_map.mp inside
      exact filled entry member
    · have stored : name ∈ known := (split name).mpr ⟨defined, inside⟩
      rw [kept name inside, passed.resolved.filled name stored]
      refine congrArg some (fill_map_congr _ fun var member other mentioned => ?_)
      have found := passed.resolved.closed name stored other ⟨var, member, mentioned⟩
      rw [if_pos (Or.inl found), membersIn, membersIn, kept other ((split other).mp found).2]

end

/-- The members that a struct finds others to have when it is resolved. Of the structs that are
left in the end it finds those of smaller names. -/
noncomputable def visible (declared : String → List Variable) (structs : Structs)
    (name other : String) : List Variable :=
  open Classical in
  if Settled declared other ∨ other < name then membersIn structs other else []

section

variable {ast : Ast} {roots : List NodeId} {enums : Enums}

end

end SolTrace.UserTypes
