import SolTrace.Debugger
import SolTrace.Proofs.Code.Linking
import SolTrace.Proofs.Contract.Lookup
import SolTrace.Proofs.Trace.Contexts
import SolTrace.Proofs.Trace.Locals
/-!
Where the steps of a trace come from. A step is taken at a record, a record is an instruction of a
known contract, and a known contract is that of an artifact.
-/
set_option autoImplicit false

namespace SolTrace

/-! ### Steps -/

namespace Reduction

/-- Whether all steps satisfy a condition. -/
def StepsAll (kept : Step → Prop) (state : Reduction) : Prop :=
  ∀ step ∈ state.steps, kept step

section

variable {kept : Step → Prop} {state : Reduction}

theorem StepsAll.congr {other : Reduction} (all : StepsAll kept state)
    (same : other.steps = state.steps) : StepsAll kept other := by
  rw [StepsAll, same]
  exact all

theorem StepsAll.emit {record : Record} {kind : StepKind} (all : StepsAll kept state)
    (taken : kept (state.stepAt record kind)) : StepsAll kept (state.emit record kind) := by
  intro step member
  rcases Array.mem_push.mp member with member | rfl
  · exact all step member
  · exact taken

/-- An event takes no steps but those at its own record. -/
theorem StepsAll.perform {event : Event} {after : Reduction} (all : StepsAll kept state)
    (taken : ∀ (state : Reduction) (kind : StepKind), kept (state.stepAt event.record kind))
    (performed : event.perform state = .ok after) : StepsAll kept after := by
  cases event with
  | declares record => exact all.congr (registerLocal_steps performed)
  | takes record kind =>
      have dropped := all.congr (ready_steps state record)
      rcases takeStep_cases performed with ⟨-, rfl⟩ | ⟨-, -, rfl⟩ |
        ⟨-, function, inner, -, entered, rfl⟩ | ⟨-, -, rfl⟩ | ⟨-, -, left⟩
      · exact dropped.emit (taken _ kind)
      · exact dropped
      · exact (dropped.congr (enterFunction_steps entered)).emit (taken _ _)
      · refine leaveWhile_preserves (motive := StepsAll kept) (fun state all => ?_) _ dropped
        exact (all.emit (taken _ _)).congr (leaveFunction_steps _)
      · obtain ⟨frame, frames, -, -, rfl⟩ := exitFunction_cases left
        exact (dropped.emit (taken _ _)).congr (leaveFunction_steps _)

theorem StepsAll.foldrM {past : List Event} {last : Reduction} (all : StepsAll kept state)
    (taken : ∀ event ∈ past, ∀ (state : Reduction) (kind : StepKind),
      kept (state.stepAt event.record kind))
    (performed : past.foldrM Event.perform state = .ok last) : StepsAll kept last := by
  induction past generalizing last with
  | nil =>
      cases performed
      exact all
  | cons event past ih =>
      rw [List.foldrM_cons] at performed
      obtain ⟨before, earlier, here⟩ := bind_eq_ok.mp performed
      have front := ih (fun other member => taken other (List.mem_cons_of_mem event member)) earlier
      exact front.perform (taken event List.mem_cons_self) here

end

end Reduction

/-- Every step shows some state at one of the records. -/
theorem reduce_records {registry : Registry} {inputs : TraceInputs} {steps : List Step}
    (reduced : reduce registry inputs = .ok steps) :
    ∃ alignment, Alignment.ofInputs registry inputs = .ok alignment ∧
      ∀ step ∈ steps, ∃ record ∈ alignment.records.toList, ∃ (state : Reduction) (kind : StepKind),
        step = state.stepAt record kind := by
  obtain ⟨alignment, last, aligned, performed, rfl⟩ := reduce_events reduced
  let kept (step : Step) : Prop := ∃ record ∈ alignment.records.toList,
    ∃ (state : Reduction) (kind : StepKind), step = state.stepAt record kind
  have none : (Reduction.start inputs alignment).StepsAll kept :=
    fun _ member => absurd member (Array.not_mem_empty _)
  have taken : ∀ event ∈ alignment.timeline, ∀ (state : Reduction) (kind : StepKind),
      kept (state.stepAt event.record kind) :=
    fun event inside state kind =>
      ⟨event.record, Alignment.record_of_timeline inside, state, kind, rfl⟩
  exact ⟨alignment, aligned, fun step member =>
    none.foldrM taken performed step (Array.mem_toList_iff.mp member)⟩

/-! ### Records -/

/-- Whether a record is an instruction of a known contract. -/
structure Record.Known (registry : Registry) (record : Record) : Prop where
  contract : record.contract ∈ registry.toList
  mapped : ∃ isCreation,
    (record.contract.code isCreation).at? record.log.pc = some record.mapped
  node : record.contract.ast.node record.mapped.node = .ok record.node

theorem Registry.mem_toList {registry : Registry} {contract : Contract} :
    contract ∈ registry.toList ↔ ∃ name : String, registry.contracts[name]? = some contract := by
  simp only [toList, List.mem_map, Prod.exists, exists_eq_right,
    Std.ExtTreeMap.mem_toList_iff_getElem?_eq_some]

theorem Registry.byCode_known {registry : Registry} {id : BytecodeId} {contract : Contract}
    {code : LinkedCode} (found : registry.byCode id = .ok (contract, code)) :
    contract ∈ registry.toList ∧ ∃ isCreation, code = contract.code isCreation := by
  unfold byCode at found
  split at found
  · cases found
  · next name isCreation _ =>
      obtain ⟨other, known, found⟩ := bind_eq_ok.mp found
      cases found
      unfold get at known
      split at known
      · next stored =>
          cases known
          exact ⟨mem_toList.mpr ⟨name, stored⟩, isCreation, rfl⟩
      · cases known

namespace Alignment

section

variable {registry : Registry} {inputs : TraceInputs} {alignment after : Alignment}

theorem record?_known {contexts : List Context} {current : Context} {index : Nat}
    {log : StructLog} {record : Record}
    (made : record? registry contexts current index log = .ok (some record)) :
    record.Known registry := by
  obtain ⟨⟨contract, code⟩, found, rest⟩ := bind_eq_ok.mp made
  obtain ⟨known, isCreation, rfl⟩ := Registry.byCode_known found
  dsimp only at rest
  split at rest
  · cases rest
  · next mapped here =>
      obtain ⟨node, stored, equal⟩ := bind_eq_ok.mp rest
      cases equal
      exact ⟨known, ⟨isCreation, here⟩, stored⟩

/-- Whether all records are instructions of known contracts. -/
def RecordsKnown (registry : Registry) (alignment : Alignment) : Prop :=
  ∀ record ∈ alignment.records, record.Known registry

theorem addLog_known {entry : StructLog × Nat} (known : alignment.RecordsKnown registry)
    (added : addLog registry inputs alignment entry = .ok after) :
    after.RecordsKnown registry := by
  obtain ⟨log, index⟩ := entry
  rcases addLog_cases added with ⟨-, rfl⟩ | ⟨current, others, record, contexts, made, followed⟩
  · exact known
  · have records : after.records =
        ((alignment.leaveDeeper log.depth).assign current record).records := by
      rcases follow_cases followed with rfl | rfl | ⟨code, address, depth, rfl⟩ <;> rfl
    rw [RecordsKnown, records]
    cases record with
    | none => exact known
    | some record =>
        intro other member
        rcases Array.mem_push.mp member with member | rfl
        · exact known other member
        · exact record?_known made

theorem ofInputs_known (aligned : ofInputs registry inputs = .ok alignment) :
    alignment.RecordsKnown registry := by
  obtain ⟨depth, started, start, ran⟩ := ofInputs_cases aligned
  refine Contract.foldlM_keeps (fun before entry after known added => addLog_known known added) _
    ?_ ran
  rw [RecordsKnown, (start_numbered start).2]
  exact fun _ none => absurd none (Array.not_mem_empty _)

end

end Alignment

/-! ### Contracts -/

theorem Registry.mem_of_ofContracts {contracts : List Contract} {contract : Contract}
    (known : contract ∈ (ofContracts contracts).toList) : contract ∈ contracts := by
  obtain ⟨name, found⟩ := mem_toList.mp known
  rw [ofContracts_contracts] at found
  exact List.mem_reverse.mp (List.mem_of_find?_eq_some found)

theorem exists_of_mem_mapM {α β : Type} {make : α → Except Error β} {items : List α}
    {results : List β} (made : items.mapM make = .ok results) {result : β}
    (member : result ∈ results) : ∃ item ∈ items, make item = .ok result := by
  induction items generalizing results with
  | nil =>
      cases made
      cases member
  | cons item items ih =>
      rw [List.mapM_cons] at made
      obtain ⟨first, here, made⟩ := bind_eq_ok.mp made
      obtain ⟨others, rest, made⟩ := bind_eq_ok.mp made
      cases made
      rcases List.mem_cons.mp member with rfl | later
      · exact ⟨item, List.mem_cons_self, here⟩
      · obtain ⟨other, inside, found⟩ := ih rest later
        exact ⟨other, List.mem_cons_of_mem item inside, found⟩

namespace Debugger

/-- The contracts that a debugger knows are those of its artifacts. -/
theorem ofArtifacts_contracts {provider : Provider} {nocache : Bool} {artifacts : List Artifact}
    {debugger : Debugger} (made : ofArtifacts provider nocache artifacts = .ok debugger) :
    debugger.sources = Sources.ofArtifacts artifacts ∧
      ∀ contract ∈ debugger.registry.toList, ∃ artifact ∈ artifacts,
        Contract.ofArtifact debugger.sources artifact = .ok contract := by
  obtain ⟨registry, built, made⟩ := bind_eq_ok.mp made
  cases made
  obtain ⟨contracts, accepted, built⟩ := bind_eq_ok.mp built
  cases built
  exact ⟨rfl, fun contract known =>
    exists_of_mem_mapM accepted (Registry.mem_of_ofContracts known)⟩

end Debugger

end SolTrace
