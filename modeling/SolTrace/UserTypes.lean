import SolTrace.Ast.Basic
import SolTrace.Ty
/-!
Types of declarations. The structs and enums of a compilation are kept under their qualified names;
type names in the syntax tree are resolved against them.
-/
set_option autoImplicit false

namespace SolTrace

/-- Structs and enums under `Contract.Name`, or under `Name` outside of contracts. -/
structure UserTypes where
  structs : Std.ExtTreeMap String (List Variable)
  enums : Std.ExtTreeMap String (List String)

namespace UserTypes

def empty : UserTypes := ⟨∅, ∅⟩

instance : Inhabited UserTypes := ⟨empty⟩

/-- The name that a struct or enum is kept under. -/
def qualifiedName (ast : Ast) (node : Node) : String :=
  match ast.enclosing? node.id .contractDefinition with
  | some contract => contract.name ++ "." ++ node.name
  | none => node.name

/-- The types declared in the named contracts. -/
def declaredIn (types : UserTypes) (contracts : List String) : UserTypes :=
  let keep (name : String) : Bool :=
    match Text.splitFirst '.' name.toList with
    | (contract, some _) => contracts.contains (String.ofList contract)
    | (_, none) => false
  ⟨types.structs.filter fun name _ => keep name, types.enums.filter fun name _ => keep name⟩

end UserTypes

/-- What types are resolved against. With `placeholders` a struct that is not known counts as a
struct without members. -/
structure Resolver where
  ast : Ast
  types : UserTypes
  placeholders : Bool

namespace Resolver

/-- The type behind the text of a struct, enum or contract type. Contracts are addresses. -/
def named (resolver : Resolver) (text : String) : Except Error Ty :=
  let (kind, rest) := Text.splitFirst ' ' text.toList
  let name := String.ofList (Text.splitFirst ' ' (rest.getD [])).1
  let unknown := Except.error (.unknownUserType text)
  match String.ofList kind with
  | "struct" =>
      match resolver.types.structs[name]? with
      | some members => .ok (.struct name members)
      | none => if resolver.placeholders then .ok (.struct name []) else unknown
  | "enum" =>
      match resolver.types.enums[name]? with
      | some values => .ok (.enum name values)
      | none => unknown
  | "contract" | "interface" => .ok (.elementary "address")
  | _ => unknown

/-- The length at the end of the text of an array type; what follows a blank is no part of it. -/
def lengthOfText? (text : String) : Option Nat :=
  match (Text.splitFirst ' ' text.toList).1.reverse with
  | ']' :: inner =>
      (Text.splitLast? '[' inner.reverse).bind fun parts => Text.nat64? (String.ofList parts.2)
  | _ => none

/-- The length of an array type: its literal, or what its own text says if the length is an
expression. Without a length the array is dynamic. -/
def arrayLength? (resolver : Resolver) (node : Node) : Option Nat :=
  match (node.child? "length").bind resolver.ast.get? with
  | none => none
  | some length =>
      match (length.text? "value").bind Text.nat64? with
      | some literal => some literal
      | none => node.typeText?.bind lengthOfText?

def elementary (node : Node) : Except Error Ty :=
  match (node.text? "name").orElse fun _ => node.typeText? with
  | none => .error (.unknownType ("unnamed type " ++ toString node.id))
  | some name =>
      let name := if (Elementary.after? "address" name.toList).isSome then "address" else name
      if (Elementary.ofName? name).isSome then .ok (.elementary name)
      else .error (.unknownType name)

/-- The type of a type name that holds at most `depth` levels of type names. -/
def resolveWithin (resolver : Resolver) : Nat → NodeId → Except Error Ty
  | 0, id => .error (.nodeNotFound id)
  | depth + 1, id => do
      let node ← resolver.ast.node id
      match node.kind with
      | .elementaryTypeName => elementary node
      | .arrayTypeName =>
          match node.child? "baseType" with
          | none => .error (.ast (.arrayWithoutBase id))
          | some base =>
              return .array (← resolver.resolveWithin depth base) (resolver.arrayLength? node)
      | .mapping =>
          match node.child? "keyType", node.child? "valueType" with
          | some key, some value =>
              return .mapping (← resolver.resolveWithin depth key)
                (← resolver.resolveWithin depth value)
          | _, _ => .error (.ast (.mappingWithoutParts id))
      | .functionTypeName =>
          return .elementary
            (if node.text? "visibility" = some "internal" then "function internal" else "function")
      | .userDefinedTypeName =>
          match node.typeText? with
          | some text => resolver.named text
          | none => .error (.unknownUserType ("node " ++ toString id))
      | _ => .error (.unknownType node.tag)

/-- The type of a type name. Type names nest no deeper than there are nodes. -/
def resolve (resolver : Resolver) (id : NodeId) : Except Error Ty :=
  resolver.resolveWithin (resolver.ast.nodes.size + 1) id

def location (node : Node) : DataLocation :=
  if node.flag "stateVariable" then .storage
  else
    match node.text? "storageLocation" with
    | some "memory" => .memory
    | some "storage" => .storage
    | some "calldata" => .calldata
    | _ => .stack

def mutability (node : Node) : Mutability :=
  match node.text? "mutability" with
  | some "constant" => .constant
  | some "immutable" => .immutable
  | some _ => .mutable
  | none => if node.flag "constant" then .constant else .mutable

/-- The literal that a declaration sets its variable to. -/
def literal? (resolver : Resolver) (node : Node) : Option String :=
  (((node.child? "value").bind resolver.ast.get?).filter fun value =>
    value.kind == .literal).bind fun value => value.text? "value"

/-- The variable of a declaration. -/
def declared (resolver : Resolver) (node : Node) : Except Error Variable := do
  let type ←
    match node.child? "typeName" with
    | some type => resolver.resolve type
    | none => .error (.unknownType ("untyped declaration " ++ toString node.id))
  return {
    id := node.id
    name := node.name
    location := location node
    type
    scope := node.scope?.getD 0
    state := node.flag "stateVariable"
    mutability := mutability node
    value := if mutability node = .constant then resolver.literal? node else none }

/-- The members of a struct definition. -/
def members (resolver : Resolver) (id : NodeId) : Except Error (List Variable) := do
  let node ← resolver.ast.node id
  (node.field "members").mapM fun member => do resolver.declared (← resolver.ast.node member)

end Resolver

namespace UserTypes

def enumValues (ast : Ast) (node : Node) : Except Error (List String) :=
  (node.field "members").mapM fun id => do return (← ast.node id).name

/-- The enums below the roots. -/
def enumsOf (ast : Ast) (roots : List NodeId) :
    Except Error (Std.ExtTreeMap String (List String)) :=
  (roots.flatMap fun root => ast.find root .enumDefinition).foldlM
    (fun enums node => do
      return enums.insert (qualifiedName ast node) (← enumValues ast node)) ∅

/-- The struct definitions below the roots, by name. -/
def definitions (ast : Ast) (roots : List NodeId) : Std.ExtTreeMap String NodeId :=
  (roots.flatMap fun root => ast.find root .structDefinition).foldl
    (fun structs node => structs.insert (qualifiedName ast node) node.id) ∅

def addStruct (types : UserTypes) (name : String) (members : List Variable) : UserTypes :=
  { types with structs := types.structs.insert name members }

/-- Resolves in turn each struct whose members are all known by then, and returns the others. -/
def resolveKnown (ast : Ast) :
    List (String × NodeId) → UserTypes → Except Error (List (String × NodeId) × UserTypes)
  | [], types => .ok ([], types)
  | (name, id) :: rest, types =>
      match (Resolver.mk ast types false).members id with
      | .ok members => resolveKnown ast rest (types.addStruct name members)
      | .error (.unknownUserType _) => do
          let (left, types) ← resolveKnown ast rest types
          return ((name, id) :: left, types)
      | .error error => .error error

/-- Repeats the rounds until one resolves nothing, at most `rounds` of them. -/
def settle (ast : Ast) : Nat → List (String × NodeId) → UserTypes →
    Except Error (List (String × NodeId) × UserTypes)
  | 0, pending, types => .ok (pending, types)
  | rounds + 1, pending, types => do
      let (left, types) ← resolveKnown ast pending types
      if left.length = pending.length then return (left, types)
      else settle ast rounds left types

/-- Resolves structs that refer to themselves, with placeholders for what is not known. -/
def resolveRecursive (ast : Ast) : List (String × NodeId) → UserTypes → Except Error UserTypes
  | [], types => .ok types
  | (name, id) :: rest, types => do
      let members ← (Resolver.mk ast types true).members id
      resolveRecursive ast rest (types.addStruct name members)

/-- The structs and enums below the roots. Structs may refer to each other in any order. -/
def ofRoots (ast : Ast) (roots : List NodeId) : Except Error UserTypes := do
  let enums ← enumsOf ast roots
  let pending := (definitions ast roots).toList
  let (left, types) ← settle ast pending.length pending ⟨∅, enums⟩
  resolveRecursive ast left types

end UserTypes

end SolTrace
