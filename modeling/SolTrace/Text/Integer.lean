/-!
Integers in text: an optional sign, then at least one ASCII digit and nothing else, in the range
of a fixed width. A reading that fails says which of these rules the text breaks first.
-/
set_option autoImplicit false

namespace SolTrace.Text

inductive IntegerError
  | empty
  | invalidDigit
  | tooLarge
  | tooSmall
deriving Repr, DecidableEq

def IntegerError.message : IntegerError → String
  | .empty => "cannot parse integer from empty string"
  | .invalidDigit => "invalid digit found in string"
  | .tooLarge => "number too large to fit in target type"
  | .tooSmall => "number too small to fit in target type"

def digit? (c : Char) : Option Nat :=
  if '0' ≤ c ∧ c ≤ '9' then some (c.toNat - '0'.toNat) else none

/-- Reads digits after those whose value is `value`. The first character that is no digit or that
takes the value past `limit` decides the error. -/
def readDigits (limit : Nat) (overflow : IntegerError) :
    List Char → Nat → Except IntegerError Nat
  | [], value => .ok value
  | c :: rest, value =>
      match digit? c with
      | none => .error .invalidDigit
      | some d =>
          if limit < value * 10 + d then .error overflow
          else readDigits limit overflow rest (value * 10 + d)

def readNat (limit : Nat) : List Char → Except IntegerError Nat
  | [] => .error .empty
  | ['+'] | ['-'] => .error .invalidDigit
  | '+' :: rest => readDigits limit .tooLarge rest 0
  | text => readDigits limit .tooLarge text 0

/-- The largest 64-bit unsigned number. -/
def maxNat64 : Nat := 0xFFFFFFFFFFFFFFFF

/-- The largest 64-bit signed number. -/
def maxInt64 : Nat := 0x7FFFFFFFFFFFFFFF

/-- Reads a 64-bit unsigned number. -/
def nat64? (text : String) : Option Nat :=
  (readNat maxNat64 text.toList).toOption

def readInt : List Char → Except IntegerError Int
  | [] => .error .empty
  | ['+'] | ['-'] => .error .invalidDigit
  | '+' :: rest => (readDigits maxInt64 .tooLarge rest 0).map Int.ofNat
  | '-' :: rest => (readDigits (maxInt64 + 1) .tooSmall rest 0).map fun n => -(n : Int)
  | text => (readDigits maxInt64 .tooLarge text 0).map Int.ofNat

/-- Reads a 64-bit signed number. -/
def int64? (text : String) : Option Int :=
  (readInt text.toList).toOption

end SolTrace.Text
