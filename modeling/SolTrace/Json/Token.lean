import SolTrace.Hex
import SolTrace.Json.Basic
/-!
The numbers and strings of JSON text. A string that is skipped need only be closed: its escapes are
looked at one by one, so that surrogates may stand alone in it.
-/
set_option autoImplicit false

namespace SolTrace.Json

def isSpace (c : Char) : Bool :=
  c == ' ' || c == '\n' || c == '\t' || c == '\r'

def skipSpace (text : List Char) : List Char :=
  text.dropWhile isSpace

def takeDigits (text : List Char) : List Char × List Char :=
  text.span Char.isDigit

/-- The point and digits of a fraction, if there is one. -/
def takeFraction : List Char → List Char × List Char
  | '.' :: rest =>
      match takeDigits rest with
      | ([], _) => ([], '.' :: rest)
      | (digits, rest) => ('.' :: digits, rest)
  | text => ([], text)

def takeExponent : List Char → List Char × List Char
  | e :: rest =>
      if e = 'e' ∨ e = 'E' then
        let (sign, unsigned) :=
          match rest with
          | '+' :: tail => (['+'], tail)
          | '-' :: tail => (['-'], tail)
          | tail => ([], tail)
        match takeDigits unsigned with
        | ([], _) => ([], e :: rest)
        | (digits, tail) => (e :: sign ++ digits, tail)
      else ([], e :: rest)
  | [] => ([], [])

/-- Digits without a leading zero, or a single zero. -/
def takeInteger : List Char → Option (List Char × List Char)
  | '0' :: rest => some (['0'], rest)
  | text =>
      match takeDigits text with
      | ([], _) => none
      | read => some read

def takeNumber (text : List Char) : Option (String × List Char) :=
  let (sign, unsigned) :=
    match text with
    | '-' :: rest => (['-'], rest)
    | rest => ([], rest)
  match takeInteger unsigned with
  | none => none
  | some (integer, rest) =>
      let (fraction, rest) := takeFraction rest
      let (exponent, rest) := takeExponent rest
      some (String.ofList (sign ++ integer ++ fraction ++ exponent), rest)

def hexDigit? (c : Char) : Option Nat :=
  if c.toNat < 0x80 then Hex.digit? (UInt8.ofNat c.toNat) else none

def takeUnit : List Char → Option (Nat × List Char)
  | a :: b :: c :: d :: rest =>
      match hexDigit? a, hexDigit? b, hexDigit? c, hexDigit? d with
      | some a, some b, some c, some d => some (((a * 16 + b) * 16 + c) * 16 + d, rest)
      | _, _, _, _ => none
  | _ => none

/-- The character of a four-digit escape; two escapes that form a surrogate pair are one
character, and a surrogate without its partner is refused. -/
def takeEscape (text : List Char) : Option (Char × List Char) :=
  match takeUnit text with
  | none => none
  | some (high, rest) =>
      if 0xD800 ≤ high ∧ high < 0xDC00 then
        match rest with
        | '\\' :: 'u' :: rest =>
            match takeUnit rest with
            | none => none
            | some (low, rest) =>
                if 0xDC00 ≤ low ∧ low < 0xE000 then
                  some (Char.ofNat (0x10000 + (high - 0xD800) * 0x400 + (low - 0xDC00)), rest)
                else none
        | _ => none
      else if 0xDC00 ≤ high ∧ high < 0xE000 then none
      else some (Char.ofNat high, rest)

def escapes : List (Char × Char) :=
  [('"', '"'), ('\\', '\\'), ('/', '/'), ('b', '\x08'), ('f', '\x0c'), ('n', '\n'),
    ('r', '\r'), ('t', '\t')]

/-- Reads a string up to its closing quote. The fuel bounds the number of characters, so the length
of the text is enough. -/
def takeString : Nat → List Char → List Char → Option (String × List Char)
  | 0, _, _ => none
  | _ + 1, _, [] => none
  | _ + 1, read, '"' :: rest => some (String.ofList read.reverse, rest)
  | fuel + 1, read, '\\' :: 'u' :: rest =>
      match takeEscape rest with
      | none => none
      | some (c, rest) => takeString fuel (c :: read) rest
  | fuel + 1, read, '\\' :: c :: rest =>
      match escapes.lookup c with
      | none => none
      | some c => takeString fuel (c :: read) rest
  | fuel + 1, read, c :: rest =>
      if c.toNat < 0x20 ∨ c = '\\' then none else takeString fuel (c :: read) rest

def takeQuoted (fuel : Nat) : List Char → Option (String × List Char)
  | '"' :: rest => takeString fuel [] rest
  | _ => none

/-- Skips a string up to its closing quote. -/
def skipString : List Char → Option (List Char)
  | [] => none
  | '"' :: rest => some rest
  | '\\' :: 'u' :: a :: b :: c :: d :: rest =>
      if [a, b, c, d].all fun digit => (hexDigit? digit).isSome then skipString rest else none
  | '\\' :: c :: rest => if (escapes.lookup c).isSome then skipString rest else none
  | c :: rest => if c.toNat < 0x20 ∨ c = '\\' then none else skipString rest

end SolTrace.Json
