import SolTrace.Word
/-!
What can go wrong, by cause, and how each cause is worded.
-/
set_option autoImplicit false

namespace SolTrace

/-- The number of a node in a syntax tree. -/
abbrev NodeId := Int

/-- Which field of a source map entry is unreadable. -/
inductive SourceMapFault
  | offset
  | length
  | fileIndex
  | jumpType
deriving Repr, DecidableEq

def SourceMapFault.message : SourceMapFault → String
  | .offset => "invalid offset"
  | .length => "invalid length"
  | .fileIndex => "invalid file index"
  | .jumpType => "invalid jump type"

inductive AstFault
  | rootIsNoNode
  | arrayWithoutBase (id : NodeId)
  | mappingWithoutParts (id : NodeId)
deriving Repr, DecidableEq

def AstFault.message : AstFault → String
  | .rootIsNoNode => "root is not a node"
  | .arrayWithoutBase id => "array type " ++ toString id ++ " without base type"
  | .mappingWithoutParts id => "mapping " ++ toString id ++ " without key or value type"

/-- Why a value cannot be read from the state of the machine. Types are given by their text. -/
inductive DecodeFault
  | word (text : String) (cause : Word.ReadError)
  | noStep
  | stackPosition (position words : Nat)
  | overflowsSlot (type : String) (offset : Nat)
  | shortLength (length : Nat)
  | pointerPastMemory (pointer : Nat)
  | elementsPastMemory (count : Nat)
  | bytesPastMemory (length pointer : Nat)
  | pointerRange (pointer : Word)
  | lengthTooLarge (length : Nat)
  | noValueType (type : String)
  | fixedPoint
deriving Repr, DecidableEq

def DecodeFault.message : DecodeFault → String
  | .word text cause => "invalid word `" ++ text ++ "`: " ++ cause.message
  | .noStep => "no step applied"
  | .stackPosition position words =>
      "stack position " ++ toString position ++ " out of bounds (" ++ toString words ++ " words)"
  | .overflowsSlot type offset =>
      type ++ " at offset " ++ toString offset ++ " overflows its slot"
  | .shortLength length => "short value of " ++ toString length ++ " bytes"
  | .pointerPastMemory pointer =>
      "pointer 0x" ++ String.ofList (Nat.toDigits 16 pointer) ++ " past the end of memory"
  | .elementsPastMemory count => "array of " ++ toString count ++ " elements exceeds memory"
  | .bytesPastMemory length pointer =>
      toString length ++ " bytes at " ++ toString pointer ++ " exceed memory"
  | .pointerRange pointer => "pointer " ++ pointer.hex ++ " out of range"
  | .lengthTooLarge length => "length " ++ toString length ++ " too large"
  | .noValueType type => type ++ " is not a value type"
  | .fixedPoint => "fixed point numbers are not supported"

inductive Error
  /-- No known contract has code with the identity that starts with these digits. -/
  | bytecodeNotFound (digits : String)
  | contractNotFound (name : String)
  | unresolvedTarget (transaction : Word)
  | pendingTransaction (transaction : Word)
  | nodeNotFound (id : NodeId)
  | exitMismatch (expected found : String)
  | emptyCallStack
  | danglingContexts (count : Nat)
  | unknownType (text : String)
  | unknownUserType (text : String)
  | sourceMap (entry : String) (fault : SourceMapFault)
  | ast (fault : AstFault)
  | hex (digit : Hex.BadDigit)
  | decode (fault : DecodeFault)
  | provider (reason : String)
  | json
  | file
deriving Repr, DecidableEq

/-- The text of a transaction hash. -/
def hashText (hash : Word) : String :=
  "0x" ++ String.ofList hash.digits

/-- The wording of an error. Faults of documents and files are not worded further. -/
def Error.message : Error → String
  | .bytecodeNotFound digits => "bytecode " ++ digits ++ " not found among the known contracts"
  | .contractNotFound name => "contract " ++ name ++ " not found"
  | .unresolvedTarget hash => "cannot resolve the target of transaction " ++ hashText hash
  | .pendingTransaction hash => "transaction " ++ hashText hash ++ " is not mined yet"
  | .nodeNotFound id => "ast node " ++ toString id ++ " not found"
  | .exitMismatch expected found =>
      "function exit mismatch: expected `" ++ expected ++ "`, found `" ++ found ++ "`"
  | .emptyCallStack => "function exit without an active function"
  | .danglingContexts count =>
      toString count ++ " call context(s) still active at the end of the trace"
  | .unknownType text => "unknown type: " ++ text
  | .unknownUserType text => "unknown user-defined type: " ++ text
  | .sourceMap entry fault => "invalid source map entry `" ++ entry ++ "`: " ++ fault.message
  | .ast fault => "malformed ast: " ++ fault.message
  | .hex digit => digit.message
  | .decode fault => "decode error: " ++ fault.message
  | .provider reason => "provider error: " ++ reason
  | .json => "malformed document"
  | .file => "unreadable file"

/-! ### Results -/

section

variable {ε α β : Type}

@[simp] theorem ok_bind (value : α) (next : α → Except ε β) :
    (Except.ok value >>= next) = next value := rfl

@[simp] theorem error_bind (error : ε) (next : α → Except ε β) :
    (Except.error error >>= next) = .error error := rfl

theorem bind_eq_ok {first : Except ε α} {next : α → Except ε β} {result : β} :
    (first >>= next) = .ok result ↔ ∃ value, first = .ok value ∧ next value = .ok result := by
  cases first <;> simp

theorem map_eq_ok {first : Except ε α} {make : α → β} {result : β} :
    first.map make = .ok result ↔ ∃ value, first = .ok value ∧ make value = result := by
  cases first <;> simp [Except.map]

theorem mapError_eq_ok {ε' : Type} {first : Except ε α} {make : ε → ε'} {result : α} :
    first.mapError make = .ok result ↔ first = .ok result := by
  cases first with
  | error error => exact ⟨nofun, nofun⟩
  | ok value =>
      constructor
      · rintro ⟨⟩
        rfl
      · rintro ⟨⟩
        rfl

end

end SolTrace
