import SolTrace.Error
import SolTrace.Json.Basic
/-!
Nodes of a syntax tree. A node keeps the plain fields of its document as attributes and refers to
the nodes below it by number, field by field in document order.
-/
set_option autoImplicit false

namespace SolTrace

/-- The tags of nodes that matter here. -/
inductive NodeKind
  | sourceUnit | pragmaDirective | importDirective | contractDefinition | inheritanceSpecifier
  | usingForDirective | structDefinition | enumDefinition | enumValue | eventDefinition
  | errorDefinition | modifierDefinition | modifierInvocation | functionDefinition
  | parameterList | variableDeclaration | elementaryTypeName | userDefinedTypeName
  | arrayTypeName | mapping | functionTypeName | identifierPath | block | uncheckedBlock
  | placeholderStatement | variableDeclarationStatement | expressionStatement | ifStatement
  | forStatement | whileStatement | doWhileStatement | continueStatement | breakStatement
  | returnStatement | emitStatement | revertStatement | tryStatement | throwStatement
  | inlineAssembly | assignment | binaryOperation | unaryOperation | conditional | functionCall
  | functionCallOptions | newExpression | memberAccess | indexAccess | indexRangeAccess
  | identifier | elementaryTypeNameExpression | tupleExpression | literal
  /-- Any other tag. -/
  | other
deriving Repr, DecidableEq

namespace NodeKind

/-- The kinds with their tags. -/
def tags : List (String × NodeKind) :=
  [("SourceUnit", sourceUnit), ("PragmaDirective", pragmaDirective),
    ("ImportDirective", importDirective), ("ContractDefinition", contractDefinition),
    ("InheritanceSpecifier", inheritanceSpecifier), ("UsingForDirective", usingForDirective),
    ("StructDefinition", structDefinition), ("EnumDefinition", enumDefinition),
    ("EnumValue", enumValue), ("EventDefinition", eventDefinition),
    ("ErrorDefinition", errorDefinition), ("ModifierDefinition", modifierDefinition),
    ("ModifierInvocation", modifierInvocation), ("FunctionDefinition", functionDefinition),
    ("ParameterList", parameterList), ("VariableDeclaration", variableDeclaration),
    ("ElementaryTypeName", elementaryTypeName), ("UserDefinedTypeName", userDefinedTypeName),
    ("ArrayTypeName", arrayTypeName), ("Mapping", mapping),
    ("FunctionTypeName", functionTypeName), ("IdentifierPath", identifierPath),
    ("Block", block), ("UncheckedBlock", uncheckedBlock),
    ("PlaceholderStatement", placeholderStatement),
    ("VariableDeclarationStatement", variableDeclarationStatement),
    ("ExpressionStatement", expressionStatement), ("IfStatement", ifStatement),
    ("ForStatement", forStatement), ("WhileStatement", whileStatement),
    ("DoWhileStatement", doWhileStatement), ("Continue", continueStatement),
    ("Break", breakStatement), ("Return", returnStatement), ("EmitStatement", emitStatement),
    ("RevertStatement", revertStatement), ("TryStatement", tryStatement),
    ("Throw", throwStatement), ("InlineAssembly", inlineAssembly), ("Assignment", assignment),
    ("BinaryOperation", binaryOperation), ("UnaryOperation", unaryOperation),
    ("Conditional", conditional), ("FunctionCall", functionCall),
    ("FunctionCallOptions", functionCallOptions), ("NewExpression", newExpression),
    ("MemberAccess", memberAccess), ("IndexAccess", indexAccess),
    ("IndexRangeAccess", indexRangeAccess), ("Identifier", identifier),
    ("ElementaryTypeNameExpression", elementaryTypeNameExpression),
    ("TupleExpression", tupleExpression), ("Literal", literal), ("Other", other)]

def ofTag (tag : String) : NodeKind :=
  (tags.lookup tag).getD other

/-- The tag of a kind. -/
def tag (kind : NodeKind) : String :=
  ((tags.find? fun entry => entry.2 == kind).map Prod.fst).getD "Other"

def isTypeName : NodeKind → Bool
  | elementaryTypeName | userDefinedTypeName | arrayTypeName | mapping | functionTypeName => true
  | _ => false

end NodeKind

structure Node where
  id : NodeId
  tag : String
  /-- The range of the node, in the form that source map positions have. -/
  src : String
  attributes : List (String × Json)
  /-- The fields that hold nodes. -/
  children : List (String × List NodeId)
deriving Inhabited, Repr

namespace Node

def kind (node : Node) : NodeKind :=
  NodeKind.ofTag node.tag

def attribute? (node : Node) (key : String) : Option Json :=
  node.attributes.lookup key

def text? (node : Node) (key : String) : Option String :=
  (node.attribute? key).bind Json.string?

/-- Whether an attribute is there and true. -/
def flag (node : Node) (key : String) : Bool :=
  ((node.attribute? key).bind Json.bool?).getD false

/-- The integers in an attribute that is an array. -/
def ids (node : Node) (key : String) : List NodeId :=
  (((node.attribute? key).bind Json.items?).getD []).filterMap Json.int64?

def name (node : Node) : String :=
  (node.text? "name").getD ""

def scope? (node : Node) : Option NodeId :=
  (node.attribute? "scope").bind Json.int64?

def typeText? (node : Node) : Option String :=
  ((node.attribute? "typeDescriptions").bind fun type => type.get? "typeString").bind Json.string?

/-- The nodes in a field. -/
def field (node : Node) (key : String) : List NodeId :=
  (node.children.lookup key).getD []

/-- The first node in a field. -/
def child? (node : Node) (key : String) : Option NodeId :=
  (node.field key).head?

def childIds (node : Node) : List NodeId :=
  node.children.flatMap Prod.snd

/-- The name that a function is called by. Functions without a name are called by what they are. -/
def functionName (node : Node) : String :=
  if node.name = "" then (node.text? "kind").getD "fallback" else node.name

/-- Contracts have the contracts that they inherit from as scopes, and declarations the node that
they are declared in. -/
def scopes (node : Node) : List NodeId :=
  node.ids "linearizedBaseContracts" ++ node.scope?.toList

end Node

end SolTrace
