import SolTrace.Contract.Registry
/-!
What a registry knows, told from the sequence of its contracts: of codes with one identity the first
one, of contracts with one name the last one.
-/
set_option autoImplicit false

namespace SolTrace

/-- The codes of contracts that are known by their identity, with the contract of each. -/
def codesOf (contracts : List Contract) : List (Contract × LinkedCode) :=
  (contracts.flatMap fun contract =>
    [(contract, contract.creation), (contract, contract.runtime)]).filter
      fun entry => !entry.2.isEmpty

/-- The first code of an identity, and its contract. -/
def firstCoded? (contracts : List Contract) (id : BytecodeId) : Option (Contract × LinkedCode) :=
  (codesOf contracts).find? fun entry => entry.2.id == id

/-- The last contract of a name. -/
def lastNamed? (contracts : List Contract) (name : String) : Option Contract :=
  contracts.reverse.find? fun contract => contract.name == name

theorem mem_of_firstCoded? {contracts : List Contract} {id : BytecodeId} {owner : Contract}
    {code : LinkedCode} (found : firstCoded? contracts id = some (owner, code)) :
    owner ∈ contracts ∧ (code = owner.creation ∨ code = owner.runtime) ∧ code.id = id := by
  have same : code.id = id := by simpa using List.find?_some found
  have listed := (List.mem_filter.mp (List.mem_of_find?_eq_some found)).1
  obtain ⟨contract, member, inside⟩ := List.mem_flatMap.mp listed
  simp only [List.mem_cons, Prod.mk.injEq, List.not_mem_nil, or_false] at inside
  rcases inside with ⟨rfl, rfl⟩ | ⟨rfl, rfl⟩
  · exact ⟨member, Or.inl rfl, same⟩
  · exact ⟨member, Or.inr rfl, same⟩

theorem lastNamed?_isSome {contracts : List Contract} {contract : Contract}
    (member : contract ∈ contracts) : ∃ last, lastNamed? contracts contract.name = some last := by
  refine Option.isSome_iff_exists.mp (List.find?_isSome.mpr ⟨contract, ?_, ?_⟩)
  · exact List.mem_reverse.mpr member
  · exact beq_self_eq_true contract.name

namespace Registry

/-! ### What is known after each contract -/

theorem addCode_codes (registry : Registry) (name : String) (known : name ∈ registry.contracts)
    (code : LinkedCode) (id : BytecodeId) :
    (registry.addCode name known code).codes[id]? =
      (registry.codes[id]?).or
        (if !code.isEmpty && code.id == id then some (name, code.isCreation) else none) := by
  unfold addCode
  by_cases empty : code.isEmpty
  · simp [empty]
  · rw [if_neg empty, Std.ExtTreeMap.getElem?_insertIfNew]
    by_cases same : code.id = id
    · subst same
      by_cases present : code.id ∈ registry.codes <;> simp [empty, present]
    · simp [same, Std.LawfulEqCmp.compare_eq_iff_eq]

theorem add_contracts (registry : Registry) (contract : Contract) :
    (registry.add contract).contracts = registry.contracts.insert contract.name contract := by
  simp [add, addName]

theorem add_codes (registry : Registry) (contract : Contract) (id : BytecodeId) :
    (registry.add contract).codes[id]? =
      (registry.codes[id]?).or ((firstCoded? [contract] id).map fun entry =>
        (contract.name, entry.2.isCreation)) := by
  unfold add
  rw [addCode_codes, addCode_codes, Option.or_assoc]
  congr 1
  unfold firstCoded? codesOf
  cases created : contract.creation.isEmpty <;> cases running : contract.runtime.isEmpty <;>
    by_cases first : contract.creation.id = id <;> by_cases second : contract.runtime.id = id <;>
      simp [created, running, first, second]

theorem foldl_contracts (contracts : List Contract) (name : String) :
    ∀ registry : Registry, (contracts.foldl add registry).contracts[name]? =
      (lastNamed? contracts name).or registry.contracts[name]? := by
  induction contracts with
  | nil => intro registry; simp [lastNamed?]
  | cons contract contracts ih =>
      intro registry
      rw [List.foldl_cons, ih, add_contracts, Std.ExtTreeMap.getElem?_insert]
      unfold lastNamed?
      rw [List.reverse_cons, List.find?_append, Option.or_assoc]
      congr 1
      by_cases same : contract.name = name <;> simp [same, Std.LawfulEqCmp.compare_eq_iff_eq]

theorem foldl_codes (contracts : List Contract) (id : BytecodeId) :
    ∀ registry : Registry, (contracts.foldl add registry).codes[id]? =
      (registry.codes[id]?).or ((firstCoded? contracts id).map fun entry =>
        (entry.1.name, entry.2.isCreation)) := by
  induction contracts with
  | nil => intro registry; simp [firstCoded?, codesOf]
  | cons contract contracts ih =>
      intro registry
      have split : firstCoded? (contract :: contracts) id =
          (firstCoded? [contract] id).or (firstCoded? contracts id) := by
        simp only [firstCoded?, codesOf, List.flatMap_cons, List.flatMap_nil, List.append_nil,
          List.filter_append, List.find?_append]
      have own : ∀ entry, firstCoded? [contract] id = some entry → entry.1 = contract :=
        fun entry found => List.mem_singleton.mp (mem_of_firstCoded? found).1
      rw [List.foldl_cons, ih, add_codes, Option.or_assoc, split]
      congr 1
      cases found : firstCoded? [contract] id with
      | none => rfl
      | some entry => simp [own entry found]

theorem ofContracts_contracts (contracts : List Contract) (name : String) :
    (ofContracts contracts).contracts[name]? = lastNamed? contracts name := by
  simp [ofContracts, foldl_contracts, empty]

theorem ofContracts_codes (contracts : List Contract) (id : BytecodeId) :
    (ofContracts contracts).codes[id]? = (firstCoded? contracts id).map fun entry =>
      (entry.1.name, entry.2.isCreation) := by
  simp [ofContracts, foldl_codes, empty]

/-- The first contract with code of an identity tells the name, the last contract of that name is
returned. -/
theorem byCode_ofContracts (contracts : List Contract) (id : BytecodeId) (contract : Contract)
    (code : LinkedCode) :
    (ofContracts contracts).byCode id = .ok (contract, code) ↔
      ∃ owner first, firstCoded? contracts id = some (owner, first) ∧
        lastNamed? contracts owner.name = some contract ∧
          code = contract.code first.isCreation := by
  unfold byCode
  rw [ofContracts_codes]
  cases found : firstCoded? contracts id with
  | none => simp
  | some entry =>
      obtain ⟨owner, first⟩ := entry
      obtain ⟨last, named⟩ := lastNamed?_isSome (mem_of_firstCoded? found).1
      have get : (ofContracts contracts).get owner.name = .ok last := by
        simp [Registry.get, ofContracts_contracts, named]
      simp only [Option.map_some, get, ok_bind]
      constructor
      · intro made
        cases made
        exact ⟨owner, first, rfl, named, rfl⟩
      · rintro ⟨_, _, same, kept, rfl⟩
        cases same
        rw [named] at kept
        cases kept
        rfl

end Registry

end SolTrace
