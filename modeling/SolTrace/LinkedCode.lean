import SolTrace.Ast.Basic
import SolTrace.Bytecode
import SolTrace.Instruction
import SolTrace.Source
import SolTrace.SourceMap
/-!
Code together with where its instructions come from. An instruction is mapped if its source map
entry names a file and a node of the syntax tree has exactly the range of the entry.
-/
set_option autoImplicit false

namespace SolTrace

structure MappedInstruction where
  instruction : Instruction
  location : SourceLocation
  node : NodeId
  /-- The name of the source file, empty if the file is not known. -/
  file : String
  range : SourceRange
deriving Repr

structure LinkedCode where
  /-- Whether it is the code that creates the contract rather than the code of the contract. -/
  isCreation : Bool
  text : List UInt8
  /-- The mapped instructions in the order of the code. -/
  mapped : List MappedInstruction
  id : BytecodeId := .ofText text
  id_eq : id = .ofText text := by rfl

namespace LinkedCode

/-- Whether nothing but metadata is left of the code. -/
def isEmpty (code : LinkedCode) : Bool :=
  (Bytecode.normalize code.text).isEmpty

/-- The mapped instruction that starts at a position of the code. -/
def at? (code : LinkedCode) (pc : Nat) : Option MappedInstruction :=
  code.mapped.find? fun mapped => mapped.instruction.pc == pc

/-- What an instruction with the given source map entry comes from. -/
def mapInstruction? (files : Std.ExtTreeMap Int Source) (nodes : Std.ExtTreeMap String NodeId)
    (instruction : Instruction) : Option SourceLocation → Option MappedInstruction
  | none => none
  | some location =>
      nodes[location.position]?.map fun node =>
        let file := files[location.fileIndex]?
        { instruction, location, node
          file := (file.map Source.name).getD ""
          range := (file.map fun file => file.range location.offset location.length).getD default }

theorem mapInstruction?_node {files : Std.ExtTreeMap Int Source}
    {nodes : Std.ExtTreeMap String NodeId} {instruction : Instruction}
    {location : Option SourceLocation} {mapped : MappedInstruction}
    (made : mapInstruction? files nodes instruction location = some mapped) :
    ∃ position : String, nodes[position]? = some mapped.node := by
  cases location with
  | none => cases made
  | some location =>
      simp only [mapInstruction?, Option.map_eq_some_iff] at made
      obtain ⟨node, found, rfl⟩ := made
      exact ⟨location.position, found⟩

/-- Links code to its source map. `nodes` gives the node of each range. -/
def link (map : String) (text : List UInt8) (files : Std.ExtTreeMap Int Source)
    (nodes : Std.ExtTreeMap String NodeId) (isCreation : Bool) : Except Error LinkedCode := do
  let code ← Bytecode.decode text
  let entries ← SourceMap.parse map
  let mapped := ((Instruction.scan code).zip entries).filterMap fun (instruction, entry) =>
    mapInstruction? files nodes instruction entry
  return { isCreation, text, mapped }

theorem link_node {map : String} {text : List UInt8} {files : Std.ExtTreeMap Int Source}
    {nodes : Std.ExtTreeMap String NodeId} {isCreation : Bool} {code : LinkedCode}
    (linked : link map text files nodes isCreation = .ok code) :
    ∀ mapped ∈ code.mapped, ∃ position : String, nodes[position]? = some mapped.node := by
  obtain ⟨bytes, _, linked⟩ := bind_eq_ok.mp linked
  obtain ⟨entries, _, linked⟩ := bind_eq_ok.mp linked
  cases linked
  intro mapped member
  obtain ⟨⟨instruction, entry⟩, _, made⟩ := List.mem_filterMap.mp member
  exact mapInstruction?_node made

/-- Whether all mapped instructions come from nodes of a syntax tree. -/
def Within (code : LinkedCode) (ast : Ast) : Prop :=
  ∀ mapped ∈ code.mapped, ∃ node, ast.get? mapped.node = some node

theorem within_of_unmapped (code : LinkedCode) (ast : Ast) (unmapped : code.mapped = []) :
    code.Within ast := by
  intro mapped listed
  rw [unmapped] at listed
  cases listed

end LinkedCode

end SolTrace
