import SolTrace.Proofs.SourceMap.Positions
import SolTrace.Proofs.Trace.Origins
/-!
The lines that breakpoints can be set on. They are found from the syntax trees alone, but cover the
lines that steps have from source maps: a step in a function that starts and ends on one line is on
a line that a breakpoint can be set on.
-/
set_option autoImplicit false

namespace SolTrace

/-! ### Sorted lines -/

/-- Numbers in ascending order that follow `last` are put in front of those found, each once. -/
theorem eraseReps_loop {last : Nat} {lines found : List Nat}
    (descending : (last :: found).Pairwise (· > ·)) (ascending : (last :: lines).Pairwise (· ≤ ·)) :
    (List.eraseRepsBy.loop (· == ·) last lines found).Pairwise (· < ·) ∧
      ∀ line, line ∈ List.eraseRepsBy.loop (· == ·) last lines found ↔
        line ∈ found ∨ line ∈ last :: lines := by
  induction lines generalizing last found with
  | nil =>
      refine ⟨List.pairwise_reverse.mpr descending, fun line => ?_⟩
      simp [List.eraseRepsBy.loop, or_comm]
  | cons next lines ih =>
      obtain ⟨least, rest⟩ := List.pairwise_cons.mp ascending
      have above := least next List.mem_cons_self
      rw [List.eraseRepsBy.loop]
      by_cases same : last = next
      · subst same
        rw [beq_self_eq_true]
        obtain ⟨sorted, members⟩ := ih descending rest
        refine ⟨sorted, fun line => (members line).trans ?_⟩
        simp
      · rw [beq_eq_false_iff_ne.mpr same]
        have higher : (next :: last :: found).Pairwise (· > ·) := by
          refine List.pairwise_cons.mpr ⟨fun line member => ?_, descending⟩
          rcases List.mem_cons.mp member with rfl | member
          · omega
          · have below := (List.pairwise_cons.mp descending).1 line member
            omega
        obtain ⟨sorted, members⟩ := ih higher rest
        refine ⟨sorted, fun line => (members line).trans ?_⟩
        simp only [List.mem_cons]
        tauto

theorem sortedLines_spec (lines : List Nat) :
    (sortedLines lines).Pairwise (· < ·) ∧ ∀ line, line ∈ sortedLines lines ↔ line ∈ lines := by
  have ascending : (lines.mergeSort (· ≤ ·)).Pairwise (· ≤ ·) := by
    have sorted : (lines.mergeSort (· ≤ ·)).Pairwise fun a b => decide (a ≤ b) = true :=
      List.pairwise_mergeSort (by simp only [decide_eq_true_eq]; omega)
        (by simp only [Bool.or_eq_true, decide_eq_true_eq]; omega) lines
    simpa only [decide_eq_true_eq] using sorted
  have members : ∀ line, line ∈ lines.mergeSort (· ≤ ·) ↔ line ∈ lines :=
    fun _ => List.mem_mergeSort
  rw [sortedLines]
  cases merged : lines.mergeSort (· ≤ ·) with
  | nil =>
      rw [merged] at members
      exact ⟨.nil, members⟩
  | cons first rest =>
      rw [merged] at ascending members
      obtain ⟨sorted, same⟩ := eraseReps_loop (List.pairwise_singleton _ first) ascending
      refine ⟨sorted, fun line => (same line).trans ?_⟩
      rw [← members line]
      simp

/-! ### Checkpoints -/

namespace SourceRange

theorem line_iff {range : SourceRange} {line : Nat} :
    (range.isLine = true ∧ range.startLine? = some line) ↔
      ∃ start stop, range.start = some start ∧ range.stop = some stop ∧
        start.line = line ∧ stop.line = line := by
  obtain ⟨start, stop⟩ := range
  cases start with
  | none => simp [isLine]
  | some start =>
      cases stop with
      | none => simp [isLine]
      | some stop =>
          simp only [isLine, startLine?, Option.map_some, Option.some.injEq, beq_iff_eq]
          constructor
          · rintro ⟨same, rfl⟩
            exact ⟨start, stop, rfl, rfl, rfl, same.symm⟩
          · rintro ⟨_, _, rfl, rfl, rfl, same⟩
            exact ⟨same.symm, rfl⟩

theorem startLine?_isSome {range : SourceRange} (isLine : range.isLine = true) :
    ∃ line, range.startLine? = some line := by
  obtain ⟨start, stop⟩ := range
  cases start with
  | none => cases isLine
  | some start => exact ⟨start.line, rfl⟩

end SourceRange

/-- Whether a node starts and ends on a line of a source file. -/
def Source.Spans (source : Source) (node : Node) (line : Nat) : Prop :=
  ∃ offset length, Source.nodeRange? node.src = some (offset, length) ∧
    ∃ start stop, source.place? offset = some start ∧ source.place? (offset + length) = some stop ∧
      start.line = line ∧ stop.line = line

theorem Source.nodeLine?_eq_some {source : Source} {node : Node} {line : Nat} :
    source.nodeLine? node = some line ↔ source.Spans node line := by
  simp only [nodeLine?, Option.bind_eq_some_iff, Prod.exists, Spans]
  refine exists_congr fun offset => exists_congr fun length => and_congr_right fun _ => ?_
  have same := @SourceRange.line_iff (source.range offset length) line
  rw [← Option.ite_none_right_eq_some] at same
  exact same

namespace Ast

/-- Whether a node is a function definition that references lead to from a root, or stands below
one. -/
def InFunction (ast : Ast) (node : Node) : Prop :=
  ∃ function, ast.Reachable function ∧ function.kind = .functionDefinition ∧
    ast.Contains function node

/-- The walks that checkpoints are found by meet the nodes in functions. -/
theorem Built.inFunction_iff {ast : Ast} (built : ast.Built) {node : Node} :
    ast.InFunction node ↔ ∃ root ∈ ast.roots, ∃ function ∈ ast.find root .functionDefinition,
      node ∈ ast.walk function.id := by
  constructor
  · rintro ⟨function, ⟨kept, root, top, path⟩, kind, contains⟩
    have met := built.mem_walk.mpr ⟨kept, path⟩
    exact ⟨root, top, function, List.mem_filter.mpr ⟨met, beq_iff_eq.mpr kind⟩,
      (built.mem_walk_iff_contains kept).mpr contains⟩
  · rintro ⟨root, top, function, found, within⟩
    obtain ⟨met, kind⟩ := List.mem_filter.mp found
    obtain ⟨kept, path⟩ := built.mem_walk.mp met
    exact ⟨function, ⟨kept, root, top, path⟩, beq_iff_eq.mp kind,
      (built.mem_walk_iff_contains kept).mp within⟩

end Ast

namespace Debugger

theorem mem_checkpoints {debugger : Debugger} {file : String} {line : Nat} :
    line ∈ debugger.checkpoints file ↔
      ∃ source, debugger.sources[file]? = some source ∧ ∃ contract ∈ debugger.registry.toList,
        ∃ root ∈ rootsOf contract file, ∃ function ∈ contract.ast.find root .functionDefinition,
          ∃ node ∈ contract.ast.walk function.id, source.Spans node line := by
  unfold checkpoints
  cases debugger.sources[file]? with
  | none => simp
  | some source =>
      simp only [(sortedLines_spec _).2, List.mem_flatMap, Source.checkpoints, List.mem_filterMap,
        Source.nodeLine?_eq_some, Option.some.injEq, exists_eq_left']

theorem checkpoints_sorted (debugger : Debugger) (file : String) :
    (debugger.checkpoints file).Pairwise (· < ·) := by
  unfold checkpoints
  split
  · exact .nil
  · exact (sortedLines_spec _).1

theorem mem_rootsOf {contract : Contract} {file : String} {root : NodeId} :
    root ∈ rootsOf contract file ↔ root ∈ contract.ast.roots ∧
      ∃ node, contract.ast.get? root = some node ∧ node.text? "absolutePath" = some file := by
  simp only [rootsOf, List.mem_filter, beq_iff_eq, Option.bind_eq_some_iff]

end Debugger

/-! ### Source files -/

/-- Whether source files are kept under their names. -/
def Sources.Named (sources : Sources) : Prop :=
  ∀ (name : String) (source : Source), sources[name]? = some source → source.name = name

theorem Sources.ofArtifacts_named (artifacts : List Artifact) : (ofArtifacts artifacts).Named := by
  unfold ofArtifacts
  refine List.foldlRecOn (motive := Named) _ _ (by simp [Named]) ?_
  intro sources known file _ name source found
  rw [Std.ExtTreeMap.getElem?_insert] at found
  split at found
  · next same =>
      cases found
      exact Std.LawfulEqCmp.eq_of_compare same
  · exact known name source found

namespace Contract

/-- Whether source files are kept under the numbers that an artifact gives them. -/
def Filed (artifact : Artifact) (sources : Sources) (files : Std.ExtTreeMap Int Source) : Prop :=
  ∀ (index : Int) (source : Source), files[index]? = some source →
    ∃ (name : String) (file : SourceFile), artifact.sources[name]? = some file ∧
      file.id = index ∧ sources[name]? = some source

theorem filesOf_filed (artifact : Artifact) (sources : Sources) :
    Filed artifact sources (filesOf artifact sources) := by
  unfold filesOf
  refine List.foldlRecOn (motive := Filed artifact sources) _ _ (by simp [Filed]) ?_
  intro files known entry member index source found
  split at found
  · exact known index source found
  · next stored =>
      rw [Std.ExtTreeMap.getElem?_insert] at found
      split at found
      · next same =>
          cases found
          exact ⟨entry.1, entry.2, Std.ExtTreeMap.mem_toList_iff_getElem?_eq_some.mp member,
            Std.LawfulEqCmp.eq_of_compare same, stored⟩
      · exact known index source found

end Contract

/-- Whether the syntax trees of an artifact are those of its source files: the files have different
numbers, and each root has the path of a file, whose number all nodes from the root on have in their
ranges. -/
structure Artifact.Consistent (artifact : Artifact) : Prop where
  distinct : ∀ (name other : String) (file otherFile : SourceFile),
    artifact.sources[name]? = some file → artifact.sources[other]? = some otherFile →
      file.id = otherFile.id → name = other
  rooted : ∀ ast, Contract.astOf artifact = .ok ast → ∀ root ∈ ast.roots,
    ∃ (name : String) (file : SourceFile) (top : Node), artifact.sources[name]? = some file ∧
      ast.get? root = some top ∧ top.text? "absolutePath" = some name ∧
      ∀ node, ast.Contains top node → ∀ index, node.fileIndex? = some index → index = file.id

/-! ### Steps and checkpoints -/

namespace Contract

/-- What is mapped to a node has the range of the node, in a file that the artifact names. -/
theorem mapped_range {sources : Sources} {artifact : Artifact} {contract : Contract}
    (accepted : ofArtifact sources artifact = .ok contract) {isCreation : Bool} {pc : Nat}
    {mapped : MappedInstruction} (here : (contract.code isCreation).at? pc = some mapped)
    {node : Node} (stored : contract.ast.node mapped.node = .ok node)
    (isLine : mapped.range.isLine = true) :
    ∃ (name : String) (file : SourceFile) (source : Source) (offset length : Nat),
      artifact.sources[name]? = some file ∧ sources[name]? = some source ∧
      node.fileIndex? = some file.id ∧ Source.nodeRange? node.src = some (offset, length) ∧
      mapped.file = source.name ∧ mapped.range = source.range offset length := by
  obtain ⟨read, linked⟩ := ofArtifact_code accepted
  obtain ⟨bytes, locations, -, entries, members⟩ := LinkedCode.link_mapped (linked isCreation)
  obtain ⟨-, linked⟩ := (LinkedCode.at?_eq_some members).mp here
  have range := SourceMap.readEntries_inRange (by decide) entries mapped.location
    (List.mem_of_getElem? linked.location)
  obtain ⟨other, found, -, src, -⟩ := nodesByRange_innermost (astOf_built read) linked.node
  rw [stored] at found
  cases found
  have made := linked.made
  simp only [LinkedCode.mapInstruction?, Option.map_eq_some_iff] at made
  obtain ⟨id, -, made⟩ := made
  cases known : (filesOf artifact sources)[mapped.location.fileIndex]? with
  | none =>
      -- The range of an unknown file has no places.
      rw [known] at made
      rw [← made] at isLine
      cases isLine
  | some source =>
      obtain ⟨name, file, named, index, shared⟩ := filesOf_filed artifact sources _ source known
      rw [known] at made
      refine ⟨name, file, source, mapped.location.offset, mapped.location.length, named, shared,
        ?_, ?_, ?_, ?_⟩
      · rw [index]
        exact SourceLocation.fileIndex?_position range src
      · rw [src]
        exact SourceLocation.nodeRange?_position range
      · exact congrArg MappedInstruction.file made.symm
      · exact congrArg MappedInstruction.range made.symm

end Contract

/-- An instruction in a function, on one line, is on a line that a breakpoint can be set on. -/
theorem Debugger.line_mem_checkpoints {debugger : Debugger} {artifact : Artifact}
    {contract : Contract} (named : debugger.sources.Named)
    (known : contract ∈ debugger.registry.toList)
    (accepted : Contract.ofArtifact debugger.sources artifact = .ok contract)
    (consistent : artifact.Consistent) {isCreation : Bool} {pc : Nat} {mapped : MappedInstruction}
    (here : (contract.code isCreation).at? pc = some mapped) {node : Node}
    (stored : contract.ast.node mapped.node = .ok node) (inside : contract.ast.InFunction node)
    (isLine : mapped.range.isLine = true) :
    ∃ line, mapped.range.startLine? = some line ∧ line ∈ debugger.checkpoints mapped.file := by
  obtain ⟨name, file, source, offset, length, listed, shared, index, range, path, spans⟩ :=
    Contract.mapped_range accepted here stored isLine
  have read := (Contract.ofArtifact_code accepted).1
  have built := Contract.astOf_built read
  obtain ⟨root, listedRoot, function, found, within⟩ := built.inFunction_iff.mp inside
  have below : node ∈ contract.ast.walk root :=
    built.mem_walk_trans (List.mem_filter.mp found).1 within
  -- The file of the range is the one that the tree belongs to.
  obtain ⟨other, otherFile, top, otherListed, keptTop, titled, indices⟩ :=
    consistent.rooted contract.ast read root listedRoot
  obtain rfl := contract.ast.keyed root top keptTop
  have contains := (built.mem_walk_iff_contains keptTop).mp below
  obtain rfl := consistent.distinct name other file otherFile listed otherListed
    (indices node contains file.id index)
  obtain ⟨line, start⟩ := SourceRange.startLine?_isSome isLine
  have marked : source.Spans node line := by
    refine ⟨offset, length, range, ?_⟩
    rw [spans] at isLine start
    exact SourceRange.line_iff.mp ⟨isLine, start⟩
  rw [named name source shared] at path
  rw [path]
  exact ⟨line, start, mem_checkpoints.mpr ⟨source, shared, contract, known, top.id,
    mem_rootsOf.mpr ⟨listedRoot, top, keptTop, titled⟩, function, found, node, within, marked⟩⟩

/-- Whether a step is taken at a record. -/
structure Step.TakenAt (step : Step) (record : Record) : Prop where
  index : step.index = record.index
  node : step.node = record.node.id
  file : step.file = record.mapped.file
  range : step.range = record.mapped.range

/-- A step whose node is in a function, and whose range is on one line, is on a line that a
breakpoint can be set on. These lines are in order, and each is one that a node in a function starts
and ends on. -/
theorem checkpoints_cover_steps (provider : Provider) (nocache : Bool) (artifacts : List Artifact)
    (debugger : Debugger) (inputs : TraceInputs) (steps : List Step)
    (made : Debugger.ofArtifacts provider nocache artifacts = .ok debugger)
    (consistent : ∀ artifact ∈ artifacts, artifact.Consistent)
    (reduced : reduce debugger.registry inputs = .ok steps) :
    ∃ alignment, Alignment.ofInputs debugger.registry inputs = .ok alignment ∧
      (∀ step ∈ steps, ∃ record ∈ alignment.records.toList, step.TakenAt record ∧
        record.contract ∈ debugger.registry.toList ∧
        (record.contract.ast.InFunction record.node → step.range.isLine = true →
          ∃ line, step.line? = some line ∧ line ∈ debugger.checkpoints step.file)) ∧
      ∀ file, (debugger.checkpoints file).Pairwise (· < ·) ∧
        ∀ line ∈ debugger.checkpoints file,
          ∃ source, debugger.sources[file]? = some source ∧
            ∃ contract ∈ debugger.registry.toList, ∃ node,
              contract.ast.InFunction node ∧ source.Spans node line := by
  obtain ⟨shared, contracts⟩ := Debugger.ofArtifacts_contracts made
  have named : debugger.sources.Named := shared ▸ Sources.ofArtifacts_named artifacts
  obtain ⟨alignment, aligned, records⟩ := reduce_records reduced
  refine ⟨alignment, aligned, fun step member => ?_, fun file => ⟨?_, fun line listed => ?_⟩⟩
  · obtain ⟨record, inside, state, kind, rfl⟩ := records step member
    obtain ⟨known, ⟨isCreation, here⟩, stored⟩ :=
      Alignment.ofInputs_known aligned record (Array.mem_toList_iff.mp inside)
    obtain ⟨artifact, among, accepted⟩ := contracts record.contract known
    refine ⟨record, inside, ⟨rfl, rfl, rfl, rfl⟩, known, fun function isLine => ?_⟩
    exact debugger.line_mem_checkpoints named known accepted (consistent artifact among) here stored
      function isLine
  · exact debugger.checkpoints_sorted file
  · obtain ⟨source, stored, contract, known, root, top, function, found, node, within, spans⟩ :=
      Debugger.mem_checkpoints.mp listed
    obtain ⟨artifact, -, accepted⟩ := contracts contract known
    have built := Contract.astOf_built (Contract.ofArtifact_code accepted).1
    exact ⟨source, stored, contract, known, node,
      built.inFunction_iff.mpr ⟨root, (Debugger.mem_rootsOf.mp top).1, function, found, within⟩,
      spans⟩

namespace Setter

/-- A contract with a function of one statement, which is on the third line. -/
def text : String :=
  "contract C \x7b\n function f() \x7b\n  x = 1;\n \x7d\n\x7d\n"

def node (tag src : String) (members : List (String × Json)) : Json :=
  .object (("nodeType", .string tag) :: ("src", .string src) :: members)

def artifact : Artifact where
  name := "C"
  creationCode := ""
  creationMap := ""
  runtimeCode := "5b5500"
  runtimeMap := "14:26:0:-;31:5:0:-;0:42:0:-"
  sources := (∅ : Std.ExtTreeMap String SourceFile).insert "c.sol"
    { id := 0
      ast := node "SourceUnit" "0:43:0" [("absolutePath", .string "c.sol"),
        ("nodes", .array [node "ContractDefinition" "0:42:0" [("name", .string "C"),
          ("nodes", .array [node "FunctionDefinition" "14:26:0" [("name", .string "f"),
            ("body", node "Assignment" "31:5:0" [])]])]])]
      text }
  abi := none

def log (op : String) (pc : Nat) : StructLog :=
  ⟨pc, op, 1, [], [], ∅, none⟩

def inputs : TraceInputs where
  transaction := ⟨0, some 0x10, [], none⟩
  trace := ⟨false, [log "JUMPDEST" 0, log "SSTORE" 1, log "STOP" 2]⟩
  codes := (∅ : Std.ExtTreeMap Address String).insert 0x10 artifact.runtimeCode

def offline : Provider where
  transaction _ := .error (.provider "offline")
  trace _ := .error (.provider "offline")
  code _ := .error (.provider "offline")
  storage _ _ _ := .error (.provider "offline")

theorem consistent : artifact.Consistent := by
  have files : ∀ name file, artifact.sources[name]? = some file → name = "c.sol" ∧ file.id = 0 := by
    intro name file found
    rw [artifact, Std.ExtTreeMap.getElem?_insert] at found
    split at found
    · next same =>
        cases found
        exact ⟨(Std.LawfulEqCmp.eq_of_compare same).symm, rfl⟩
    · simp at found
  have rooted : ((Contract.astOf artifact).toOption.map fun ast => ast.roots.all fun root =>
      ((ast.get? root).bind fun node => node.text? "absolutePath") == some "c.sol" &&
        (ast.walk root).all fun node => node.fileIndex? == some 0) = some true := by
    decide +kernel
  refine ⟨fun name other file otherFile found otherFound _ => ?_, fun ast read root listed => ?_⟩
  · rw [(files name file found).1, (files other otherFile otherFound).1]
  · simp only [read, Except.toOption, Option.map_some, Option.some.injEq, List.all_eq_true,
      Bool.and_eq_true, beq_iff_eq, Option.bind_eq_some_iff] at rooted
    obtain ⟨⟨top, kept, titled⟩, below⟩ := rooted root listed
    obtain ⟨file, found⟩ : ∃ file, artifact.sources["c.sol"]? = some file :=
      ⟨_, Std.ExtTreeMap.getElem?_insert_self⟩
    refine ⟨"c.sol", file, top, found, kept, titled, fun node contains index here => ?_⟩
    obtain rfl := ast.keyed root top kept
    have within := ((Contract.astOf_built read).mem_walk_iff_contains kept).mpr contains
    rw [below node within] at here
    cases here
    exact (files "c.sol" file found).2.symm

end Setter

/-- The statement is stepped on, and a breakpoint can be set on its line. -/
theorem checkpoints_cover_steps_setter : ∃ debugger steps alignment,
    Debugger.ofArtifacts Setter.offline false [Setter.artifact] = .ok debugger ∧
      reduce debugger.registry Setter.inputs = .ok steps ∧
      steps.map (fun step => (step.range.isLine, step.line?)) = [(false, some 2), (true, some 3)] ∧
      debugger.checkpoints "c.sol" = [3] ∧
      Alignment.ofInputs debugger.registry Setter.inputs = .ok alignment ∧
      ∀ step ∈ steps, ∃ record ∈ alignment.records.toList, step.TakenAt record := by
  have ran : ((Debugger.ofArtifacts Setter.offline false [Setter.artifact]).toOption.bind
      fun debugger => (reduce debugger.registry Setter.inputs).toOption.map fun steps =>
        (steps.map fun step => (step.range.isLine, step.line?), debugger.checkpoints "c.sol")) =
      some ([(false, some 2), (true, some 3)], [3]) := by
    decide +kernel
  cases made : Debugger.ofArtifacts Setter.offline false [Setter.artifact] with
  | error error =>
      rw [made] at ran
      cases ran
  | ok debugger =>
      rw [made] at ran
      cases reduced : reduce debugger.registry Setter.inputs with
      | error error =>
          simp only [Except.toOption, Option.bind_some, reduced] at ran
          cases ran
      | ok steps =>
          simp only [Except.toOption, Option.bind_some, reduced, Option.map_some, Option.some.injEq,
            Prod.mk.injEq] at ran
          obtain ⟨alignment, aligned, taken, -⟩ := checkpoints_cover_steps Setter.offline false
            [Setter.artifact] debugger Setter.inputs steps made
            (fun artifact among => List.mem_singleton.mp among ▸ Setter.consistent) reduced
          exact ⟨debugger, steps, alignment, rfl, reduced, ran.1, ran.2, aligned,
            fun step member => (taken step member).imp fun _ found => ⟨found.1, found.2.1⟩⟩

end SolTrace
