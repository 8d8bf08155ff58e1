import SolTrace.Proofs.Code.Arguments
import SolTrace.Proofs.Contract.Identities
/-!
The input that creates a contract: its creation code with the arguments of the constructor behind
it. If no code has the identity of the whole, the first code that accepts it counts, in the order of
the contracts' names. Nothing prefers the longest one, so that the contract may be taken for one with
shorter creation code.
-/
set_option autoImplicit false

namespace SolTrace

open Bytecode

/-- Whether a code of an identity is known. -/
def Known (contracts : List Contract) (id : BytecodeId) : Prop :=
  ∃ entry ∈ codesOf contracts, entry.2.id = id

/-- The codes that are compared with a text before the creation code of a contract. -/
def Ahead (contracts : List Contract) (contract : Contract) (code : LinkedCode) : Prop :=
  Known contracts code.id ∧ (code = contract.runtime ∨
    ∃ other ∈ contracts, other.name < contract.name ∧
      (code = other.runtime ∨ code = other.creation))

/-- Whether another code than the creation code of a contract accepts a text before that does. -/
def Overtaken (contracts : List Contract) (contract : Contract) (text : List UInt8) : Prop :=
  ∃ code, Ahead contracts contract code ∧ Registry.accepts code text = true

/-- Whether the creation code of a contract shares its identity with no other code. -/
def SoleCreation (contracts : List Contract) (contract : Contract) : Prop :=
  contract.runtime.id ≠ contract.creation.id ∧ ∀ other ∈ contracts, other ≠ contract →
    other.runtime.id ≠ contract.creation.id ∧ other.creation.id ≠ contract.creation.id

theorem SoleCreation.ahead {contracts : List Contract} {contract : Contract}
    (sole : SoleCreation contracts contract) {code : LinkedCode}
    (ahead : Ahead contracts contract code) : code.id ≠ contract.creation.id := by
  rcases ahead.2 with rfl | ⟨other, member, smaller, side⟩
  · exact sole.1
  · have differs : other ≠ contract := by
      rintro rfl
      exact String.lt_irrefl _ smaller
    obtain ⟨running, created⟩ := sole.2 other member differs
    rcases side with rfl | rfl
    · exact running
    · exact created

namespace Registry

variable {contracts : List Contract} {contract : Contract}

theorem contains_codes (id : BytecodeId) :
    (ofContracts contracts).codes.contains id = true ↔ Known contracts id := by
  rw [Std.ExtTreeMap.contains_iff_mem, Std.ExtTreeMap.mem_iff_isSome_getElem?, ofContracts_codes,
    Option.isSome_map, firstCoded?, List.find?_isSome]
  simp only [beq_iff_eq]
  rfl

theorem known_creation (member : contract ∈ contracts)
    (some : contract.creation.isEmpty = false) : Known contracts contract.creation.id := by
  refine ⟨(contract, contract.creation), List.mem_filter.mpr ⟨?_, by simp [some]⟩, rfl⟩
  exact List.mem_flatMap.mpr ⟨contract, member, List.mem_cons_self⟩

/-! ### The order of comparison -/

theorem mem_entries (names : (contracts.map Contract.name).Nodup) {entry : String × Contract} :
    entry ∈ (ofContracts contracts).contracts.toList ↔
      entry.2 ∈ contracts ∧ entry.2.name = entry.1 := by
  obtain ⟨name, other⟩ := entry
  rw [Std.ExtTreeMap.mem_toList_iff_getElem?_eq_some, ofContracts_contracts]
  constructor
  · intro found
    have same : other.name = name := by simpa using List.find?_some found
    exact ⟨List.mem_reverse.mp (List.mem_of_find?_eq_some found), same⟩
  · intro ⟨member, (same : other.name = name)⟩
    rw [← same]
    exact lastNamed?_of_unique names member

/-- The contracts are in the order of their names. -/
theorem toList_split (names : (contracts.map Contract.name).Nodup) (member : contract ∈ contracts) :
    ∃ before after, (ofContracts contracts).toList = before ++ contract :: after ∧
      (∀ other, other ∈ before ↔ other ∈ contracts ∧ other.name < contract.name) ∧
      ∀ other ∈ after, other ∈ contracts ∧ other ≠ contract := by
  have listed : (contract.name, contract) ∈ (ofContracts contracts).contracts.toList :=
    (mem_entries names).mpr ⟨member, rfl⟩
  obtain ⟨front, back, split⟩ := List.append_of_mem listed
  have compared : ((ofContracts contracts).contracts.toList).Pairwise fun a b =>
      compare a.1 b.1 = .lt := Std.ExtTreeMap.ordered_keys_toList
  have sorted : ((ofContracts contracts).contracts.toList).Pairwise fun a b => a.1 < b.1 :=
    compared.imp compareOfLessAndEq_eq_lt.mp
  have within {entry : String × Contract} :
      entry ∈ (ofContracts contracts).contracts.toList ↔
        entry.2 ∈ contracts ∧ entry.2.name = entry.1 := mem_entries names
  simp only [split] at sorted within
  obtain ⟨-, behind, ordered⟩ := List.pairwise_append.mp sorted
  have later := (List.pairwise_cons.mp behind).1
  refine ⟨front.map Prod.snd, back.map Prod.snd, ?_, ?_, ?_⟩
  · rw [toList, split, List.map_append, List.map_cons]
  · intro other
    constructor
    · intro inside
      obtain ⟨entry, early, rfl⟩ := List.mem_map.mp inside
      obtain ⟨known, name⟩ := within.mp (List.mem_append_left _ early)
      exact ⟨known, name ▸ ordered entry early _ List.mem_cons_self⟩
    · rintro ⟨known, smaller⟩
      have entered := within.mpr (show (other.name, other).2 ∈ contracts ∧ _ from ⟨known, rfl⟩)
      rcases List.mem_append.mp entered with early | late
      · exact List.mem_map.mpr ⟨_, early, rfl⟩
      · rcases List.mem_cons.mp late with same | late
        · rw [(Prod.mk.inj same).1] at smaller
          exact absurd smaller (String.lt_irrefl _)
        · exact absurd smaller (String.lt_asymm (later _ late))
  · intro other inside
    obtain ⟨entry, late, rfl⟩ := List.mem_map.mp inside
    obtain ⟨known, name⟩ := within.mp (List.mem_append_right _ (List.mem_cons_of_mem _ late))
    refine ⟨known, fun same => String.lt_irrefl contract.name ?_⟩
    have larger := later entry late
    rwa [← name, same] at larger

/-- What is compared before the creation code of a contract, and that nothing behind it is code of
the contract. -/
theorem candidates_split (names : (contracts.map Contract.name).Nodup)
    (member : contract ∈ contracts) (known : Known contracts contract.creation.id) :
    ∃ ahead behind, (ofContracts contracts).candidates =
        ahead ++ contract.creation :: behind ∧
      (∀ code, code ∈ ahead ↔ Ahead contracts contract code) ∧
      ∀ code ∈ behind, ∃ other ∈ contracts, other ≠ contract ∧
        (code = other.runtime ∨ code = other.creation) := by
  obtain ⟨before, after, split, early, late⟩ := toList_split names member
  let codes (contract : Contract) : List LinkedCode := [contract.runtime, contract.creation]
  let listed (code : LinkedCode) : Bool := (ofContracts contracts).codes.contains code.id
  have mem_codes {code : LinkedCode} {others : List Contract} :
      code ∈ others.flatMap codes ↔
        ∃ other ∈ others, code = other.runtime ∨ code = other.creation := by
    simp [codes]
  refine ⟨(before.flatMap codes ++ [contract.runtime]).filter listed,
    (after.flatMap codes).filter listed, ?_, ?_, ?_⟩
  · have counted : listed contract.creation = true := (contains_codes _).mpr known
    have own : (codes contract).filter listed =
        [contract.runtime].filter listed ++ [contract.creation] :=
      (List.filter_append [contract.runtime] [contract.creation]).trans
        (congrArg _ (List.filter_cons_of_pos counted))
    unfold candidates
    rw [split]
    show ((before ++ contract :: after).flatMap codes).filter listed = _
    rw [List.flatMap_append, List.flatMap_cons, List.filter_append, List.filter_append, own,
      List.filter_append, List.append_assoc, List.append_assoc, List.singleton_append]
  · intro code
    rw [List.mem_filter, List.mem_append, mem_codes, List.mem_singleton, contains_codes, and_comm,
      or_comm]
    simp only [early, and_assoc]
    rfl
  · intro code inside
    obtain ⟨other, listed, side⟩ := mem_codes.mp (List.mem_filter.mp inside).1
    exact ⟨other, (late other listed).1, (late other listed).2, side⟩

/-! ### What is identified -/

variable {text : List UInt8}

/-- A text whose identity is not known is given that of the first code that accepts it. -/
theorem identify_of_unknown (unknown : ¬ Known contracts (.ofText text)) :
    (ofContracts contracts).identify text =
      match (ofContracts contracts).candidates.find? fun code => accepts code text with
      | some code => .ok code.id
      | none => .error (.bytecodeNotFound (BytecodeId.ofText text).short) := by
  unfold identify
  exact if_neg (mt (contains_codes _).mp unknown)

section Unknown

variable (names : (contracts.map Contract.name).Nodup) (member : contract ∈ contracts)
  (known : Known contracts contract.creation.id) (unknown : ¬ Known contracts (.ofText text))

include names member known unknown

/-- Code that is compared before and accepts a text gives the identity away. -/
theorem identify_of_overtaken (overtaken : Overtaken contracts contract text) :
    ∃ code, Ahead contracts contract code ∧
      (ofContracts contracts).identify text = .ok code.id := by
  obtain ⟨ahead, behind, split, early, -⟩ := candidates_split names member known
  obtain ⟨code, first, accepted⟩ := overtaken
  have some : (ahead.find? fun code => accepts code text).isSome :=
    List.find?_isSome.mpr ⟨code, (early code).mpr first, accepted⟩
  obtain ⟨found, before⟩ := Option.isSome_iff_exists.mp some
  refine ⟨found, (early found).mp (List.mem_of_find?_eq_some before), ?_⟩
  rw [identify_of_unknown unknown, split, List.find?_append, before]
  rfl

/-- The creation code is then compared, and after it only code of other contracts. -/
theorem identify_of_not_overtaken (free : ¬ Overtaken contracts contract text) :
    (accepts contract.creation text = true →
      (ofContracts contracts).identify text = .ok contract.creation.id) ∧
    (accepts contract.creation text = false → ∀ id,
      (ofContracts contracts).identify text = .ok id → ∃ other ∈ contracts, other ≠ contract ∧
        (id = other.runtime.id ∨ id = other.creation.id)) := by
  obtain ⟨ahead, behind, split, early, late⟩ := candidates_split names member known
  have none : ahead.find? (fun code => accepts code text) = none := by
    apply List.find?_eq_none.mpr
    intro code listed accepted
    exact free ⟨code, (early code).mp listed, accepted⟩
  rw [identify_of_unknown unknown, split, List.find?_append, none, Option.none_or]
  constructor
  · intro accepted
    simp only [List.find?_cons, accepted]
  · intro refused id identified
    simp only [List.find?_cons, refused] at identified
    cases after : behind.find? fun code => accepts code text with
    | none =>
        rw [after] at identified
        cases identified
    | some code =>
        obtain ⟨other, listed, differs, side⟩ := late code (List.mem_of_find?_eq_some after)
        rw [after] at identified
        cases identified
        exact ⟨other, listed, differs, side.imp (congrArg LinkedCode.id) (congrArg LinkedCode.id)⟩

end Unknown

/-- Code that accepts a text is found for it, unless other code accepts it before. -/
theorem identify_creation_iff (names : (contracts.map Contract.name).Nodup)
    (member : contract ∈ contracts) (known : Known contracts contract.creation.id)
    (sole : SoleCreation contracts contract)
    (apart : Known contracts (.ofText text) → .ofText text = contract.creation.id) :
    (ofContracts contracts).identify text = .ok contract.creation.id ↔
      .ofText text = contract.creation.id ∨
        accepts contract.creation text = true ∧ ¬ Overtaken contracts contract text := by
  by_cases exact : BytecodeId.ofText text = contract.creation.id
  · refine iff_of_true ?_ (.inl exact)
    unfold identify
    rw [exact]
    exact if_pos ((contains_codes _).mpr known)
  have unknown : ¬ Known contracts (.ofText text) := fun found => exact (apart found)
  rw [or_iff_right exact]
  by_cases overtaken : Overtaken contracts contract text
  · obtain ⟨code, first, identified⟩ :=
      identify_of_overtaken names member known unknown overtaken
    refine iff_of_false (fun same => ?_) fun free => free.2 overtaken
    rw [identified] at same
    exact sole.ahead first (Except.ok.inj same)
  · obtain ⟨accepting, refusing⟩ :=
      identify_of_not_overtaken names member known unknown overtaken
    rw [and_iff_left overtaken]
    cases accepted : accepts contract.creation text with
    | true => exact iff_of_true (accepting accepted) rfl
    | false =>
        refine iff_of_false (fun identified => ?_) nofun
        obtain ⟨other, listed, differs, side⟩ := refusing accepted _ identified
        obtain ⟨running, created⟩ := sole.2 other listed differs
        exact side.elim running.symm created.symm

/-- Complete code accepts what has its normal form or, for creation code, what starts with it. -/
theorem accepts_iff {code : LinkedCode} (complete : Complete code.text)
    (complete' : Complete text) :
    accepts code text = true ↔ normalize text = normalize code.text ∨
      code.isCreation = true ∧ normalize code.text <+: normalize text := by
  rw [accepts, Bool.or_eq_true, Bool.and_eq_true, complete.matchesUnlinked_iff complete',
    List.isPrefixOf_iff_prefix]

theorem accepts_creation_iff {code : LinkedCode} (created : code.isCreation = true)
    (complete : Complete code.text) (complete' : Complete text) :
    accepts code text = true ↔ normalize code.text <+: normalize text := by
  rw [accepts_iff complete complete', created, and_iff_right rfl]
  refine or_iff_right_of_imp fun same => ?_
  rw [same]

/-- If all code is linked, what comes first is creation code that is a prefix, of a contract with a
smaller name. -/
theorem overtaken_iff (flagged : ∀ contract ∈ contracts, contract.Flagged)
    (all : ∀ contract ∈ contracts,
      Complete contract.creation.text ∧ Complete contract.runtime.text)
    (member : contract ∈ contracts) (complete : Complete text)
    (unknown : ¬ Known contracts (.ofText text)) :
    Overtaken contracts contract text ↔ ∃ other ∈ contracts, other.name < contract.name ∧
      Known contracts other.creation.id ∧
        normalize other.creation.text <+: normalize text := by
  have running {other : Contract} (listed : other ∈ contracts)
      (known : Known contracts other.runtime.id) : accepts other.runtime text = false := by
    apply Bool.eq_false_iff.mpr
    intro accepted
    rcases (accepts_iff (all other listed).2 complete).mp accepted with same | ⟨created, -⟩
    · apply unknown
      rwa [BytecodeId.ofText, same, ← BytecodeId.ofText, ← other.runtime.id_eq]
    · rw [(flagged other listed).2] at created
      cases created
  have creating {other : Contract} (listed : other ∈ contracts) :=
    accepts_creation_iff (flagged other listed).1 (all other listed).1 complete
  constructor
  · rintro ⟨code, ⟨known, side⟩, accepted⟩
    rcases side with rfl | ⟨other, listed, smaller, rfl | rfl⟩
    · rw [running member known] at accepted
      cases accepted
    · rw [running listed known] at accepted
      cases accepted
    · exact ⟨other, listed, smaller, known, (creating listed).mp accepted⟩
  · rintro ⟨other, listed, smaller, known, start⟩
    exact ⟨other.creation, ⟨known, .inr ⟨other, listed, smaller, .inr rfl⟩⟩,
      (creating listed).mpr start⟩

end Registry

/-- Which inputs that create a contract get the identity of its creation code. With metadata all do.
Without, the code must be a prefix of the input in normal form, which it is if no marker starts in
it and ends in the arguments; the input is then identified, but as the first code that accepts it.
If all code is linked, that is other code just if a contract of a smaller name has creation code that
is a prefix as well. -/
theorem identify_creation_input {contracts : List Contract} {contract : Contract}
    {arguments : List UInt8} (names : (contracts.map Contract.name).Nodup)
    (flagged : ∀ contract ∈ contracts, contract.Flagged) (member : contract ∈ contracts)
    (some : contract.creation.isEmpty = false) (complete : Complete contract.creation.text)
    (digits : ∀ byte ∈ arguments, isDigit byte = true) (sole : SoleCreation contracts contract)
    (apart : Known contracts (.ofText (contract.creation.text ++ arguments)) →
      .ofText (contract.creation.text ++ arguments) = contract.creation.id) :
    let registry := Registry.ofContracts contracts
    let code := contract.creation.text
    let input := code ++ arguments
    (registry.identify input = .ok contract.creation.id ↔
      .ofText input = contract.creation.id ∨
        normalize code <+: normalize input ∧ ¬ Overtaken contracts contract input) ∧
    (normalize code <+: normalize input → ∃ id, registry.identify input = .ok id) ∧
    (GuardKept code arguments →
      (Marked (uncut code) → registry.identify input = .ok contract.creation.id) ∧
      (¬ Marked (uncut code) → (normalize code <+: normalize input ↔
        ¬ Straddled (uncut code) (arguments.map lowerByte)))) ∧
    ((∀ other ∈ contracts, Complete other.creation.text ∧ Complete other.runtime.text) →
      .ofText input ≠ contract.creation.id →
        (Overtaken contracts contract input ↔ ∃ other ∈ contracts, other.name < contract.name ∧
          Known contracts other.creation.id ∧
            normalize other.creation.text <+: normalize input)) := by
  intro registry code input
  have known := Registry.known_creation member some
  have whole : Complete input := complete.append digits
  have accepting := Registry.accepts_creation_iff (flagged contract member).1 complete whole
  have answer := Registry.identify_creation_iff names member known sole apart
  rw [accepting] at answer
  refine ⟨answer, ?_, ?_, ?_⟩
  · intro start
    by_cases exact : BytecodeId.ofText input = contract.creation.id
    · exact ⟨_, answer.mpr (.inl exact)⟩
    have unknown : ¬ Known contracts (.ofText input) := fun found => exact (apart found)
    by_cases overtaken : Overtaken contracts contract input
    · obtain ⟨other, -, identified⟩ :=
        Registry.identify_of_overtaken names member known unknown overtaken
      exact ⟨_, identified⟩
    · exact ⟨_, answer.mpr (.inr ⟨start, overtaken⟩)⟩
  · intro guard
    obtain ⟨marked, unmarked⟩ := complete.normalize_append digits guard
    refine ⟨fun cut => answer.mpr (.inl ?_), unmarked⟩
    rw [BytecodeId.ofText, marked cut, contract.creation.id_eq]
    rfl
  · intro all differs
    exact Registry.overtaken_iff flagged all member whole fun found => differs (apart found)

namespace Sample

/-- The code `6001` to create a contract, and to run it. -/
def short : Contract :=
  { contract with
    name := "Base"
    creation := { isCreation := true, text := Text.utf8 "6001", mapped := [] }
    runtime := { isCreation := false, text := Text.utf8 "6001", mapped := [] }
    creation_within := LinkedCode.within_of_unmapped _ _ rfl
    runtime_within := LinkedCode.within_of_unmapped _ _ rfl }

/-- The same code to run a contract, and more code to create it. -/
def long : Contract :=
  { short with
    name := "Derived"
    creation := { isCreation := true, text := Text.utf8 "60016002", mapped := [] }
    creation_within := LinkedCode.within_of_unmapped _ _ rfl }

/-- The creation code of the longer contract with an argument. -/
def longInput : List UInt8 := long.creation.text ++ Text.utf8 "00"

theorem id_short : short.creation.id =
    0xf26e8bc5b6055af33a88e81c46bfc941616e29daae6cdc588fe7efa51b93c733 := by decide +kernel

theorem id_long : long.creation.id =
    0x01eb180805ee0da6dacb7438c483a04d9aa222b14e68ca0b049fdad1eda072c9 := by decide +kernel

theorem id_longInput : BytecodeId.ofText longInput =
    0x3a46a5b6bbbd5c46075286a2f9ab7e8760ec88d0803bcc651cbfef4aad461265 := by decide +kernel

theorem known_short_long {id : BytecodeId} (found : Known [short, long] id) :
    id = short.creation.id ∨ id = long.creation.id := by
  obtain ⟨entry, listed, rfl⟩ := found
  obtain ⟨contract, member, side⟩ := List.mem_flatMap.mp (List.mem_filter.mp listed).1
  simp only [List.mem_cons, List.not_mem_nil, or_false] at member side
  rcases member with rfl | rfl
  · rcases side with rfl | rfl <;> exact .inl rfl
  · rcases side with rfl | rfl
    · exact .inr rfl
    · exact .inl rfl

end Sample

/-- With `00` as the argument the longer code is not found, as the input starts with the shorter one
as well. -/
theorem identify_creation_input_base :
    let registry := Registry.ofContracts [Sample.short, Sample.long]
    let input := Sample.long.creation.text ++ Text.utf8 "00"
    (∃ id, registry.identify input = .ok id) ∧
      registry.identify input ≠ .ok Sample.long.creation.id := by
  intro registry input
  have ids : [Sample.short.creation.id, Sample.long.creation.id, .ofText input].Nodup := by
    rw [Sample.id_short, Sample.id_long, show BytecodeId.ofText input = _ from Sample.id_longInput]
    decide
  simp only [List.nodup_cons, List.mem_cons, List.not_mem_nil, not_or, or_false] at ids
  obtain ⟨⟨first, second⟩, third, -⟩ := ids
  have flagged : ∀ contract ∈ [Sample.short, Sample.long], contract.Flagged := by
    simp [Contract.Flagged, Sample.short, Sample.long]
  have sole : SoleCreation [Sample.short, Sample.long] Sample.long := by
    refine ⟨first, fun other listed differs => ?_⟩
    rcases List.mem_pair.mp listed with rfl | rfl
    · exact ⟨first, first⟩
    · exact absurd rfl differs
  obtain ⟨answer, found, seams, -⟩ := @identify_creation_input [Sample.short, Sample.long]
    Sample.long (Text.utf8 "00") (by decide) flagged (by simp) (by decide +kernel) (by decide)
    (List.all_eq_true.mp (by decide)) sole fun found =>
      (Sample.known_short_long found).resolve_left (Ne.symm second)
  have start : normalize Sample.long.creation.text <+: normalize input := by
    decide +kernel
  refine ⟨found start, fun identified => ?_⟩
  rcases answer.mp identified with same | ⟨-, free⟩
  · exact third same.symm
  · apply free
    refine ⟨Sample.short.creation, ⟨⟨(Sample.short, Sample.short.creation), ?_, rfl⟩, .inr
      ⟨Sample.short, by simp, by decide, .inr rfl⟩⟩, by decide +kernel⟩
    exact List.mem_filter.mpr ⟨by simp, by decide +kernel⟩

end SolTrace
