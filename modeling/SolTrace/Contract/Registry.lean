import SolTrace.Contract.Basic
/-!
The known contracts, by name and by the identity of their code. Code from a chain is identified
exactly, or by comparison with the code of each contract.
-/
set_option autoImplicit false

namespace SolTrace

/-- Of contracts with one name the last one is known by it; of codes with one identity the first
one is known by it. -/
structure Registry where
  contracts : Std.ExtTreeMap String Contract
  /-- The contract of each identity, and whether it is the identity of its creation code. -/
  codes : Std.ExtTreeMap BytecodeId (String × Bool)
  /-- Identities stand for contracts that are known. -/
  named : ∀ (id : BytecodeId) (entry : String × Bool), codes[id]? = some entry →
    entry.1 ∈ contracts

namespace Registry

def empty : Registry := ⟨∅, ∅, by simp⟩

instance : Inhabited Registry := ⟨empty⟩

def addName (registry : Registry) (contract : Contract) : Registry where
  contracts := registry.contracts.insert contract.name contract
  codes := registry.codes
  named id entry found := by
    rw [Std.ExtTreeMap.mem_insert]
    exact Or.inr (registry.named id entry found)

/-- Makes a code of a known contract known by its identity. -/
def addCode (registry : Registry) (name : String) (known : name ∈ registry.contracts)
    (code : LinkedCode) : Registry :=
  if code.isEmpty then registry
  else
    { registry with
      codes := registry.codes.insertIfNew code.id (name, code.isCreation)
      named := by
        intro id entry found
        rw [Std.ExtTreeMap.getElem?_insertIfNew] at found
        split at found
        · cases found
          exact known
        · exact registry.named id entry found }

@[simp] theorem addCode_contracts (registry : Registry) (name : String)
    (known : name ∈ registry.contracts) (code : LinkedCode) :
    (registry.addCode name known code).contracts = registry.contracts := by
  unfold addCode
  split <;> rfl

def add (registry : Registry) (contract : Contract) : Registry :=
  let named := registry.addName contract
  have known : contract.name ∈ named.contracts := by simp [named, addName]
  (named.addCode contract.name known contract.creation).addCode contract.name (by simpa)
    contract.runtime

def ofContracts (contracts : List Contract) : Registry :=
  contracts.foldl add empty

/-- The contracts in the order of their names. -/
def toList (registry : Registry) : List Contract :=
  registry.contracts.toList.map Prod.snd

def get (registry : Registry) (name : String) : Except Error Contract :=
  match registry.contracts[name]? with
  | some contract => .ok contract
  | none => .error (.contractNotFound name)

/-- The contract and the code with an identity. -/
def byCode (registry : Registry) (id : BytecodeId) : Except Error (Contract × LinkedCode) := do
  match registry.codes[id]? with
  | none => .error (.bytecodeNotFound id.short)
  | some (name, isCreation) =>
      let contract ← registry.get name
      return (contract, contract.code isCreation)

theorem exists_byCode (registry : Registry) {id : BytecodeId} (known : id ∈ registry.codes) :
    ∃ contract isCreation, registry.byCode id = .ok (contract, contract.code isCreation) := by
  obtain ⟨entry, found⟩ :=
    Option.isSome_iff_exists.mp (Std.ExtTreeMap.mem_iff_isSome_getElem?.mp known)
  have named := registry.named id entry found
  obtain ⟨contract, kept⟩ :=
    Option.isSome_iff_exists.mp (Std.ExtTreeMap.mem_iff_isSome_getElem?.mp named)
  refine ⟨contract, entry.2, ?_⟩
  simp only [byCode, found, get, kept, ok_bind]
  rfl

/-- Whether a text is the given code with its placeholders filled in, or, for creation code, with
arguments appended. -/
def accepts (code : LinkedCode) (text : List UInt8) : Bool :=
  Bytecode.matchesUnlinked code.text text ||
    (code.isCreation && (Bytecode.normalize code.text).isPrefixOf (Bytecode.normalize text))

/-- The codes of all contracts that are known by their identity, in the order in which they are
compared. -/
def candidates (registry : Registry) : List LinkedCode :=
  (registry.toList.flatMap fun contract => [contract.runtime, contract.creation]).filter
    fun code => registry.codes.contains code.id

/-- The identity under which a code from a chain, or from a transaction's input, is known. -/
def identify (registry : Registry) (text : List UInt8) : Except Error BytecodeId :=
  let id := BytecodeId.ofText text
  if registry.codes.contains id then .ok id
  else
    match registry.candidates.find? fun code => accepts code text with
    | some code => .ok code.id
    | none => .error (.bytecodeNotFound id.short)

/-- An identity under which code is known leads to a contract. -/
theorem mem_codes_of_identify (registry : Registry) {text : List UInt8} {id : BytecodeId}
    (identified : registry.identify text = .ok id) : id ∈ registry.codes := by
  simp only [identify] at identified
  split at identified
  · rename_i exact
    cases identified
    exact Std.ExtTreeMap.mem_iff_contains.mpr exact
  · split at identified
    · rename_i code found
      cases identified
      have candidate := List.mem_of_find?_eq_some found
      exact Std.ExtTreeMap.mem_iff_contains.mpr (List.mem_filter.mp candidate).2
    · cases identified

end Registry

end SolTrace
