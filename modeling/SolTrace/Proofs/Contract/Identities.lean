import SolTrace.Proofs.Contract.Lookup
import SolTrace.Proofs.Trace.Attribution
/-!
Identities of code: what a registry returns for each. The first contract with code of an identity
gives the name under which the identity is known, but the last contract of that name is the one that
is returned.
-/
set_option autoImplicit false

namespace SolTrace

/-- Whether the first code of an identity belongs to a contract whose name stands, in the end, for
a contract that has other code in its place. -/
def Replaced (contracts : List Contract) (id : BytecodeId) : Prop :=
  ∃ owner code last, firstCoded? contracts id = some (owner, code) ∧
    lastNamed? contracts owner.name = some last ∧ (last.code code.isCreation).id ≠ id

/-- Whether a contract tells its two codes apart. -/
def Contract.Flagged (contract : Contract) : Prop :=
  contract.creation.isCreation = true ∧ contract.runtime.isCreation = false

theorem lastNamed?_of_unique {contracts : List Contract} {contract : Contract}
    (names : (contracts.map Contract.name).Nodup) (member : contract ∈ contracts) :
    lastNamed? contracts contract.name = some contract := by
  obtain ⟨last, found⟩ := lastNamed?_isSome member
  have listed := List.mem_reverse.mp (List.mem_of_find?_eq_some found)
  have same : last.name = contract.name := by simpa using List.find?_some found
  rw [found, List.inj_on_of_nodup_map names listed member same]

/-- Which code is returned for an identity, and when it has that identity: if the code was not
replaced by another contract of the same name. Code that is identified is always found. With
contracts of different names all identities are kept. -/
theorem byCode_identity (contracts : List Contract) (id : BytecodeId) :
    let registry := Registry.ofContracts contracts
    (∀ contract code, registry.byCode id = .ok (contract, code) →
      (∃ owner first, firstCoded? contracts id = some (owner, first) ∧
        lastNamed? contracts owner.name = some contract ∧
          code = contract.code first.isCreation) ∧
      (code.id = id ↔ ¬ Replaced contracts id)) ∧
    (∀ text, registry.identify text = .ok id → ∃ contract code,
      registry.byCode id = .ok (contract, code) ∧ (code.id = id ↔ ¬ Replaced contracts id)) ∧
    ((contracts.map Contract.name).Nodup → (∀ contract ∈ contracts, contract.Flagged) →
      ¬ Replaced contracts id) := by
  have exact : ∀ contract code,
      (Registry.ofContracts contracts).byCode id = .ok (contract, code) →
        (code.id = id ↔ ¬ Replaced contracts id) := by
    intro contract code found
    obtain ⟨owner, first, coded, named, rfl⟩ :=
      (Registry.byCode_ofContracts contracts id contract code).mp found
    constructor
    · rintro same ⟨other, entry, last, recoded, renamed, differs⟩
      rw [coded] at recoded
      cases recoded
      rw [named] at renamed
      cases renamed
      exact differs same
    · intro kept
      by_contra differs
      exact kept ⟨owner, first, contract, coded, named, differs⟩
  refine ⟨?_, ?_, ?_⟩
  · intro contract code found
    exact ⟨(Registry.byCode_ofContracts contracts id contract code).mp found,
      exact contract code found⟩
  · intro text identified
    obtain ⟨contract, isCreation, found⟩ :=
      (Registry.ofContracts contracts).exists_byCode (Registry.mem_codes_of_identify _ identified)
    exact ⟨contract, contract.code isCreation, found, exact _ _ found⟩
  · rintro names flagged ⟨owner, code, last, coded, named, differs⟩
    obtain ⟨member, side, same⟩ := mem_of_firstCoded? coded
    rw [lastNamed?_of_unique names member] at named
    cases named
    obtain ⟨created, running⟩ := flagged owner member
    rcases side with rfl | rfl
    · exact differs (by rw [created]; exact same)
    · exact differs (by rw [running]; exact same)

namespace Sample

/-- Another contract of the same name. -/
def successor : Contract :=
  { contract with
    runtime := { isCreation := false, text := [0x30, 0x30], mapped := [] }
    runtime_within := by simp [LinkedCode.Within] }

end Sample

/-- Whoever asks for the code of the first of two contracts of one name gets that of the second. -/
theorem byCode_successor :
    ∃ contract code,
      (Registry.ofContracts [Sample.contract, Sample.successor]).byCode Sample.runtime.id =
        .ok (contract, code) ∧ Bytecode.normalize code.text ≠ Bytecode.normalize Sample.runtime.text ∧
      (code.id = Sample.runtime.id ↔
        ¬ Replaced [Sample.contract, Sample.successor] Sample.runtime.id) := by
  have empty : Sample.creation.isEmpty = true := by decide +kernel
  have full : Sample.runtime.isEmpty = false := by decide +kernel
  have first : firstCoded? [Sample.contract, Sample.successor] Sample.runtime.id =
      some (Sample.contract, Sample.runtime) := by
    simp [firstCoded?, codesOf, Sample.contract, Sample.successor, empty, full]
  have last : lastNamed? [Sample.contract, Sample.successor] Sample.contract.name =
      some Sample.successor := by
    simp [lastNamed?, Sample.successor]
  have found : (Registry.ofContracts [Sample.contract, Sample.successor]).byCode
      Sample.runtime.id = .ok (Sample.successor, Sample.successor.runtime) :=
    (Registry.byCode_ofContracts _ _ _ _).mpr ⟨_, _, first, last, rfl⟩
  exact ⟨_, _, found, by decide +kernel,
    ((byCode_identity [Sample.contract, Sample.successor] Sample.runtime.id).1 _ _ found).2⟩

end SolTrace
