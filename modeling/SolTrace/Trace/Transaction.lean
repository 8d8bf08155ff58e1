import SolTrace.Address
import SolTrace.Error
import SolTrace.Json.Record
import SolTrace.Json.Shape
/-!
Transactions: the parts of one that its trace is read with.
-/
set_option autoImplicit false

namespace SolTrace

structure Transaction where
  hash : Word
  /-- The account that is called. It is missing, or zero, if a contract is created. -/
  receiver : Option Address
  input : List UInt8
  /-- The block is missing while the transaction is pending. -/
  block : Option Nat
deriving Repr, DecidableEq, Inhabited

namespace Transaction

/-- The deployed contract that is called. -/
def target? (transaction : Transaction) : Option Address :=
  transaction.receiver.filter (· != 0)

/-! ### Reading -/

/-- The bytes of hexadecimal text with an optional prefix and an even number of digits. -/
def bytesOfText? (text : String) : Option (List UInt8) :=
  let digits := Hex.stripPrefix (Text.utf8 text)
  if digits.length % 2 = 0 then (Hex.decodePairs 0 digits).toOption else none

def byteOfJson? (json : Json) : Option UInt8 :=
  (json.nat64?.filter (· < 256)).map UInt8.ofNat

/-- Bytes are given as hexadecimal text or as an array of numbers. -/
def bytesOfJson? : Json → Option (List UInt8)
  | .string text => bytesOfText? text
  | json => Json.list? byteOfJson? json

/-- Exactly `width` bytes. An array may end in one more item that is no byte. -/
def fixedBytesOfJson? (width : Nat) (json : Json) : Option (List UInt8) :=
  let exact :=
    match json with
    | .array items =>
        match items.drop width with
        | [surplus] => if (byteOfJson? surplus).isNone then .array (items.take width) else json
        | _ => json
    | _ => json
  (bytesOfJson? exact).filter fun bytes => bytes.length == width

/-- The value of a character as a digit, letters of either case standing for ten and more. -/
def digit? (c : Char) : Option Nat :=
  if '0' ≤ c ∧ c ≤ '9' then some (c.toNat - '0'.toNat)
  else if 'a' ≤ c ∧ c ≤ 'z' then some (c.toNat - 'a'.toNat + 10)
  else if 'A' ≤ c ∧ c ≤ 'Z' then some (c.toNat - 'A'.toNat + 10)
  else none

/-- Reads digits of a base. Underscores are skipped, and no digits at all are zero. -/
def readDigits (base : Nat) : List Char → Nat → Option Nat
  | [], value => some value
  | '_' :: rest, value => readDigits base rest value
  | c :: rest, value =>
      match (digit? c).filter (· < base) with
      | none => none
      | some digit => readDigits base rest (value * base + digit)

/-- Reads a number whose base is told by its prefix. -/
def numberOfText? (text : String) : Option Nat :=
  let read :=
    match text.toList with
    | '0' :: 'x' :: rest | '0' :: 'X' :: rest => readDigits 16 rest 0
    | '0' :: 'o' :: rest | '0' :: 'O' :: rest => readDigits 8 rest 0
    | '0' :: 'b' :: rest | '0' :: 'B' :: rest => readDigits 2 rest 0
    | text => readDigits 10 text 0
  read.filter (· ≤ Text.maxNat64)

def numberOfJson? : Json → Option Nat
  | .string text => numberOfText? text
  | json => json.nat64?

/-- The fields of a transaction, in their order. -/
def fieldNames : List String :=
  ["hash", "to", "input", "blockNumber"]

def shape : Json.Shape :=
  .flat fieldNames

def ofJson? (json : Json) : Option Transaction := do
  match ← json.fields? fieldNames with
  | [some hash, receiver, input, block] =>
      return {
        hash := Word.ofBytes (← fixedBytesOfJson? 32 hash)
        receiver := (← Json.optional (fixedBytesOfJson? 20) receiver).map Address.ofBytes
        input := ← Json.withDefault bytesOfJson? [] input
        block := ← Json.optional numberOfJson? block }
  | _ => none

/-! ### Writing -/

def toJson (transaction : Transaction) : Json :=
  let text (bytes : List UInt8) : Json := .string (Hex.encode0x bytes)
  .object
    [("hash", text transaction.hash.bytes),
      ("to", transaction.receiver.elim .null fun address => text address.bytes),
      ("input", text transaction.input),
      ("blockNumber", transaction.block.elim .null fun block =>
        .string ("0x" ++ String.ofList (Nat.toDigits 16 block)))]

end Transaction

end SolTrace
