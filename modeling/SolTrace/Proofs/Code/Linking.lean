import SolTrace.Contract.Registry
import SolTrace.Proofs.Ast.Walks
import SolTrace.Proofs.Code.Instructions
import SolTrace.Trace.Alignment
/-!
Linked code against what it is linked from. A program counter is mapped if an instruction starts
there, its source map entry names a file, and some node of the syntax trees has the range of the
entry; it is mapped to an innermost such node.
-/
set_option autoImplicit false

namespace SolTrace

/-! ### Mapped instructions -/

namespace LinkedCode

/-- An instruction of a code, mapped as its source map entry says. -/
structure Linked (bytes : List UInt8) (locations : List SourceLocation)
    (files : Std.ExtTreeMap Int Source) (nodes : Std.ExtTreeMap String NodeId)
    (mapped : MappedInstruction) : Prop where
  starts : Instruction.Starts bytes mapped.instruction.index mapped.instruction.pc
  opcode : bytes[mapped.instruction.pc]? = some mapped.instruction.opcode
  location : locations[mapped.instruction.index]? = some mapped.location
  file : mapped.location.fileIndex ≠ -1
  made : mapInstruction? files nodes mapped.instruction (some mapped.location) = some mapped

variable {files : Std.ExtTreeMap Int Source} {nodes : Std.ExtTreeMap String NodeId}
    {bytes : List UInt8} {locations : List SourceLocation}

theorem mapInstruction?_eq_some {instruction : Instruction} {location : SourceLocation}
    {mapped : MappedInstruction}
    (made : mapInstruction? files nodes instruction (some location) = some mapped) :
    mapped.instruction = instruction ∧ mapped.location = location ∧
      nodes[location.position]? = some mapped.node := by
  simp only [mapInstruction?, Option.map_eq_some_iff] at made
  obtain ⟨node, found, rfl⟩ := made
  exact ⟨rfl, rfl, found⟩

/-- An instruction whose entry names a file and has the range of a node is mapped. -/
theorem exists_linked {index pc : Nat} {opcode : UInt8} {location : SourceLocation}
    (files : Std.ExtTreeMap Int Source) (starts : Instruction.Starts bytes index pc)
    (here : bytes[pc]? = some opcode) (entry : locations[index]? = some location)
    (file : location.fileIndex ≠ -1) (found : (nodes[location.position]?).isSome = true) :
    ∃ mapped, mapped.instruction.pc = pc ∧ Linked bytes locations files nodes mapped := by
  obtain ⟨node, found⟩ := Option.isSome_iff_exists.mp found
  obtain ⟨mapped, made⟩ :
      ∃ mapped, mapInstruction? files nodes ⟨pc, index, opcode⟩ (some location) = some mapped := by
    rw [mapInstruction?, found]
    exact ⟨_, rfl⟩
  obtain ⟨instruction, rfl, -⟩ := mapInstruction?_eq_some made
  refine ⟨mapped, by rw [instruction], ?_, ?_, ?_, file, ?_⟩
  · rwa [instruction]
  · rwa [instruction]
  · rwa [instruction]
  · rwa [instruction]

namespace Linked

theorem node {mapped : MappedInstruction} (linked : Linked bytes locations files nodes mapped) :
    nodes[mapped.location.position]? = some mapped.node :=
  (mapInstruction?_eq_some linked.made).2.2

/-- An instruction is mapped in one way only. -/
theorem unique {mapped other : MappedInstruction}
    (linked : Linked bytes locations files nodes mapped)
    (otherwise : Linked bytes locations files nodes other)
    (same : mapped.instruction.pc = other.instruction.pc) : mapped = other := by
  have starts := same ▸ linked.starts
  have index : mapped.instruction.index = other.instruction.index := by
    rcases Nat.lt_trichotomy mapped.instruction.index other.instruction.index with
      before | equal | after
    · exact absurd (starts.lt otherwise.starts before) (Nat.lt_irrefl _)
    · exact equal
    · exact absurd (otherwise.starts.lt starts after) (Nat.lt_irrefl _)
  have opcode : mapped.instruction.opcode = other.instruction.opcode :=
    Option.some.inj (linked.opcode.symm.trans (same ▸ otherwise.opcode))
  have instruction : mapped.instruction = other.instruction :=
    (Instruction.mk.injEq ..).mpr ⟨same, index, opcode⟩
  have location : mapped.location = other.location :=
    Option.some.inj (linked.location.symm.trans (index ▸ otherwise.location))
  have made := linked.made
  rw [instruction, location, otherwise.made] at made
  exact (Option.some.inj made).symm

end Linked

theorem link_mapped {map : String} {text : List UInt8} {isCreation : Bool} {code : LinkedCode}
    (linked : link map text files nodes isCreation = .ok code) :
    ∃ bytes locations, Bytecode.decode text = .ok bytes ∧
      SourceMap.readEntries .initial (Text.split ';' map.toList) = .ok locations ∧
      ∀ mapped, mapped ∈ code.mapped ↔ Linked bytes locations files nodes mapped := by
  obtain ⟨bytes, decoded, linked⟩ := bind_eq_ok.mp linked
  obtain ⟨entries, parsed, linked⟩ := bind_eq_ok.mp linked
  obtain ⟨locations, read, parsed⟩ := bind_eq_ok.mp parsed
  cases parsed
  cases linked
  refine ⟨bytes, locations, decoded, read, fun mapped => ?_⟩
  rw [List.mem_filterMap]
  constructor
  · rintro ⟨⟨instruction, entry⟩, member, made⟩
    obtain ⟨index, both⟩ := List.mem_iff_getElem?.mp member
    obtain ⟨scanned, parsed⟩ := List.getElem?_zip_eq_some.mp both
    rw [List.getElem?_map, Option.map_eq_some_iff] at parsed
    obtain ⟨location, there, rfl⟩ := parsed
    dsimp only at made
    split at made
    · cases made
    · next file =>
        obtain ⟨rfl, starts, opcode⟩ := Instruction.getElem?_scan.mp scanned
        obtain ⟨same, rfl, -⟩ := mapInstruction?_eq_some made
        subst same
        exact ⟨starts, opcode, there, file, made⟩
  · intro linked
    refine ⟨(mapped.instruction, some mapped.location), List.mem_iff_getElem?.mpr
      ⟨mapped.instruction.index, List.getElem?_zip_eq_some.mpr ⟨?_, ?_⟩⟩, linked.made⟩
    · exact Instruction.getElem?_scan.mpr ⟨rfl, linked.starts, linked.opcode⟩
    · rw [List.getElem?_map, linked.location]
      exact congrArg some (if_neg linked.file)

/-- The mapped instruction at a position is the one that starts there. -/
theorem at?_eq_some {code : LinkedCode}
    (members : ∀ mapped, mapped ∈ code.mapped ↔ Linked bytes locations files nodes mapped)
    {pc : Nat} {mapped : MappedInstruction} :
    code.at? pc = some mapped ↔
      mapped.instruction.pc = pc ∧ Linked bytes locations files nodes mapped := by
  constructor
  · intro found
    have same := List.find?_some found
    exact ⟨eq_of_beq same, (members mapped).mp (List.mem_of_find?_eq_some found)⟩
  · rintro ⟨rfl, linked⟩
    have there : (code.at? mapped.instruction.pc).isSome = true := by
      rw [at?, List.find?_isSome]
      exact ⟨mapped, (members mapped).mpr linked, beq_self_eq_true _⟩
    obtain ⟨other, found⟩ := Option.isSome_iff_exists.mp there
    have same := List.find?_some found
    have otherwise := (members other).mp (List.mem_of_find?_eq_some found)
    rw [found, otherwise.unique linked (eq_of_beq same)]

end LinkedCode

/-! ### The node of a range -/

namespace Ast

/-- A node that references lead to from a root. -/
def Reachable (ast : Ast) (node : Node) : Prop :=
  ast.get? node.id = some node ∧ ∃ root ∈ ast.roots, Relation.ReflTransGen ast.Child root node.id

end Ast

namespace Contract

/-- What every step of a fold keeps, the whole fold keeps. -/
theorem foldlM_keeps {σ α : Type} {run : σ → α → Except Error σ} {holds : σ → Prop}
    (keeps : ∀ state item after, holds state → run state item = .ok after → holds after)
    (items : List α) {first last : σ} (before : holds first)
    (folded : items.foldlM run first = .ok last) : holds last := by
  induction items generalizing first with
  | nil =>
      cases folded
      exact before
  | cons item items ih =>
      rw [List.foldlM_cons] at folded
      obtain ⟨after, step, rest⟩ := bind_eq_ok.mp folded
      exact ih (keeps first item after before step) rest

theorem astOf_built {artifact : Artifact} {ast : Ast} (read : astOf artifact = .ok ast) :
    ast.Built := by
  refine foldlM_keeps (fun before file after built added => ?_) _ .empty read
  split at added
  · cases added
    exact built
  · obtain ⟨⟨root, inserted⟩, insertion, same⟩ := bind_eq_ok.mp added
    cases same
    exact .insert built insertion

theorem mem_allNodes {ast : Ast} (built : ast.Built) {node : Node} :
    node ∈ allNodes ast ↔ ast.Reachable node := by
  simp only [allNodes, List.mem_flatMap, built.mem_walk]
  constructor
  · rintro ⟨root, member, kept, path⟩
    exact ⟨kept, root, member, path⟩
  · rintro ⟨kept, root, member, path⟩
    exact ⟨root, member, kept, path⟩

/-- Of nodes with one range the last one counts. -/
theorem getElem?_nodesByRange (ast : Ast) (range : String) :
    (nodesByRange ast)[range]? =
      ((allNodes ast).reverse.find? fun node => node.src == range).map Node.id := by
  have fold : ∀ (nodes : List Node) (known : Std.ExtTreeMap String NodeId),
      (nodes.foldl (fun known node => known.insert node.src node.id) known)[range]? =
        ((nodes.reverse.find? fun node => node.src == range).map Node.id).or known[range]? := by
    intro nodes
    induction nodes with
    | nil => exact fun known => rfl
    | cons node nodes ih =>
        intro known
        rw [List.foldl_cons, ih, Std.ExtTreeMap.getElem?_insert, List.reverse_cons,
          List.find?_append, List.find?_singleton]
        cases (nodes.reverse.find? fun node => node.src == range) with
        | some later => rfl
        | none =>
            simp only [Std.LawfulEqCmp.compare_eq_iff_eq, beq_iff_eq]
            split <;> rfl
  rw [nodesByRange, fold]
  simp

theorem inOrder_allNodes {ast : Ast} (built : ast.Built) : ast.InOrder (allNodes ast) :=
  .flatMap fun root _ => built.inOrder_walk root

theorem nodesByRange_isSome {ast : Ast} (built : ast.Built) {range : String} :
    ((nodesByRange ast)[range]?).isSome = true ↔ ∃ node, ast.Reachable node ∧ node.src = range := by
  rw [getElem?_nodesByRange, Option.isSome_map, List.find?_isSome]
  simp only [List.mem_reverse, mem_allNodes built, beq_iff_eq]

/-- A range leads to a node that has it, but nothing below that node has it. -/
theorem nodesByRange_innermost {ast : Ast} (built : ast.Built) {range : String} {id : NodeId}
    (found : (nodesByRange ast)[range]? = some id) :
    ∃ node, ast.node id = .ok node ∧ ast.Reachable node ∧ node.src = range ∧
      ∀ lower, ast.Below node lower → lower.src ≠ node.src := by
  rw [getElem?_nodesByRange, Option.map_eq_some_iff] at found
  obtain ⟨node, found, rfl⟩ := found
  obtain ⟨same, later, earlier, split, others⟩ := List.find?_eq_some_iff_append.mp found
  have member : node ∈ allNodes ast := List.mem_reverse.mp (List.mem_of_find?_eq_some found)
  have reachable := (mem_allNodes built).mp member
  have src : node.src = range := eq_of_beq same
  refine ⟨node, by rw [Ast.node, reachable.1], reachable, src, fun lower below equal => ?_⟩
  have order : allNodes ast = earlier.reverse ++ node :: later.reverse := by
    rw [← List.reverse_reverse (allNodes ast), split]
    simp
  have after := inOrder_allNodes built _ node _ order lower below
  have differs := others lower (List.mem_reverse.mp after)
  rw [equal, src, beq_self_eq_true] at differs
  cases differs

/-! ### The code of an artifact -/

theorem linkTo_link {ast : Ast} {map : String} {text : List UInt8}
    {files : Std.ExtTreeMap Int Source} {isCreation : Bool}
    {code : { code : LinkedCode // code.Within ast }}
    (linked : linkTo ast map text files isCreation = .ok code) :
    LinkedCode.link map text files (nodesByRange ast) isCreation = .ok code.val := by
  unfold linkTo at linked
  split at linked
  · cases linked
  · cases linked
    assumption

/-- The text of a code, and the source map of it. -/
def textOf (artifact : Artifact) (isCreation : Bool) : String :=
  if isCreation then artifact.creationCode else artifact.runtimeCode

def mapOf (artifact : Artifact) (isCreation : Bool) : String :=
  if isCreation then artifact.creationMap else artifact.runtimeMap

theorem ofArtifact_code {sources : Sources} {artifact : Artifact} {contract : Contract}
    (accepted : ofArtifact sources artifact = .ok contract) :
    astOf artifact = .ok contract.ast ∧ ∀ isCreation,
      LinkedCode.link (mapOf artifact isCreation) (Text.utf8 (textOf artifact isCreation))
        (filesOf artifact sources) (nodesByRange contract.ast) isCreation =
          .ok (contract.code isCreation) := by
  obtain ⟨ast, read, accepted⟩ := bind_eq_ok.mp accepted
  dsimp only at accepted
  split at accepted
  · cases accepted
  · obtain ⟨types, -, accepted⟩ := bind_eq_ok.mp accepted
    obtain ⟨⟨bases, vars⟩, -, accepted⟩ := bind_eq_ok.mp accepted
    obtain ⟨creation, linked, accepted⟩ := bind_eq_ok.mp accepted
    obtain ⟨runtime, linkedThen, accepted⟩ := bind_eq_ok.mp accepted
    cases accepted
    refine ⟨read, fun isCreation => ?_⟩
    cases isCreation with
    | true => exact linkTo_link linked
    | false => exact linkTo_link linkedThen

/-- The code of a contract, linked as its artifact says. A position is mapped just if an instruction
starts there whose source map entry names a file and has the range of a node that a root leads to.
The node it is mapped to is an innermost one with that range, and it is there when a log at the
position is looked up. -/
structure LinkedTo (artifact : Artifact) (contract : Contract) (isCreation : Bool)
    (bytes : List UInt8) (locations : List SourceLocation) : Prop where
  decoded : Bytecode.decode (Text.utf8 (textOf artifact isCreation)) = .ok bytes
  read : SourceMap.readEntries .initial (Text.split ';' (mapOf artifact isCreation).toList) =
    .ok locations
  ast : astOf artifact = .ok contract.ast
  isSome : ∀ pc, ((contract.code isCreation).at? pc).isSome = true ↔
    ∃ index opcode location node, Instruction.Starts bytes index pc ∧ bytes[pc]? = some opcode ∧
      locations[index]? = some location ∧ location.fileIndex ≠ -1 ∧
      contract.ast.Reachable node ∧ node.src = location.position
  mapped : ∀ pc mapped, (contract.code isCreation).at? pc = some mapped →
    mapped.instruction.pc = pc ∧ Instruction.Starts bytes mapped.instruction.index pc ∧
      locations[mapped.instruction.index]? = some mapped.location ∧
      ∃ node, contract.ast.node mapped.node = .ok node ∧ contract.ast.Reachable node ∧
        node.src = mapped.location.position ∧
        ∀ lower, contract.ast.Below node lower → lower.src ≠ node.src
  aligned : ∀ registry contexts current index log,
    registry.byCode current.code = .ok (contract, contract.code isCreation) →
    ∃ record, Alignment.record? registry contexts current index log = .ok record

/-- The creation and the runtime code of every accepted artifact are linked as it says. -/
theorem ofArtifact_linked {sources : Sources} {artifact : Artifact} {contract : Contract}
    (accepted : ofArtifact sources artifact = .ok contract) (isCreation : Bool) :
    ∃ bytes locations, LinkedTo artifact contract isCreation bytes locations := by
  obtain ⟨read, linked⟩ := ofArtifact_code accepted
  have built := astOf_built read
  obtain ⟨bytes, locations, decoded, entries, members⟩ :=
    LinkedCode.link_mapped (linked isCreation)
  refine ⟨bytes, locations, decoded, entries, read, fun pc => ⟨fun there => ?_, ?_⟩,
    fun pc mapped found => ?_, fun registry contexts current index log known => ?_⟩
  · obtain ⟨mapped, found⟩ := Option.isSome_iff_exists.mp there
    obtain ⟨rfl, linked⟩ := (LinkedCode.at?_eq_some members).mp found
    obtain ⟨node, -, reachable, src, -⟩ := nodesByRange_innermost built linked.node
    exact ⟨_, _, _, node, linked.starts, linked.opcode, linked.location, linked.file, reachable,
      src⟩
  · rintro ⟨index, opcode, location, node, starts, here, entry, file, reachable, src⟩
    obtain ⟨mapped, found⟩ := LinkedCode.exists_linked (filesOf artifact sources) starts here entry
      file ((nodesByRange_isSome built).mpr ⟨node, reachable, src⟩)
    exact Option.isSome_iff_exists.mpr ⟨mapped, (LinkedCode.at?_eq_some members).mpr found⟩
  · obtain ⟨rfl, linked⟩ := (LinkedCode.at?_eq_some members).mp found
    exact ⟨rfl, linked.starts, linked.location, nodesByRange_innermost built linked.node⟩
  · rw [Alignment.record?, known, ok_bind]
    dsimp only
    split
    · exact ⟨_, rfl⟩
    · next mapped found =>
        obtain ⟨-, linked⟩ := (LinkedCode.at?_eq_some members).mp found
        obtain ⟨node, stored, -⟩ := nodesByRange_innermost built linked.node
        rw [stored]
        exact ⟨_, rfl⟩

/-- An artifact with a contract whose body has the range of the whole contract. -/
def enclosed : Artifact where
  name := "C"
  creationCode := "6000f3"
  creationMap := "0:5:0;;"
  runtimeCode := "00"
  runtimeMap := "0:9:0"
  sources := (∅ : Std.ExtTreeMap String SourceFile).insert "c.sol"
    { id := 0
      ast := .object [("nodeType", .string "SourceUnit"), ("src", .string "0:9:0"),
        ("nodes", .array [.object [("nodeType", .string "ContractDefinition"),
          ("name", .string "C"), ("src", .string "0:5:0"),
          ("body", .object [("nodeType", .string "Block"), ("src", .string "0:5:0")])]])]
      text := "" }
  abi := none

/-- The instruction behind the operand is mapped to the body. -/
theorem ofArtifact_linked_enclosed : ∃ contract, ofArtifact ∅ enclosed = .ok contract ∧
    (contract.creation.at? 2).map MappedInstruction.node = some (-3) ∧
    ∃ bytes locations, LinkedTo enclosed contract true bytes locations := by
  have mapped : ((ofArtifact ∅ enclosed).toOption.bind fun contract =>
      (contract.creation.at? 2).map MappedInstruction.node) = some (-3) := by decide +kernel
  obtain ⟨contract, accepted, node⟩ := Option.bind_eq_some_iff.mp mapped
  cases made : ofArtifact ∅ enclosed with
  | error error =>
      rw [made] at accepted
      cases accepted
  | ok other =>
      rw [made] at accepted
      cases accepted
      exact ⟨contract, rfl, node, ofArtifact_linked made true⟩

end Contract

end SolTrace
