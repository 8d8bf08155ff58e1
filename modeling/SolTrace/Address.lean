import SolTrace.Keccak
/-!
Addresses of accounts. Their text has a checksum in the case of its letters: a letter is a capital
where the digit at the same place of the hash of the lower-case text is eight or more.
-/
set_option autoImplicit false

namespace SolTrace

abbrev Address := BitVec 160

instance : Std.TransOrd Address := BitVec.instTransOrd

namespace Address

def bytes (address : Address) : List UInt8 :=
  bigEndian 20 address.toNat

def ofBytes (bytes : List UInt8) : Address :=
  BitVec.ofNat 160 (ofBigEndian bytes)

/-- The lower 20 bytes of a word. -/
def ofWord (word : Word) : Address :=
  word.setWidth 160

def lowercase (address : Address) : List Char :=
  address.bytes.flatMap Hex.encodeByte

def checksum (address : Address) : String :=
  let hash := (keccak256 (address.lowercase.map fun c => UInt8.ofNat c.toNat)).digits
  let digits := address.lowercase.zipWith (fun c mark => if '8' ≤ mark then c.toUpper else c) hash
  "0x" ++ String.ofList digits

end Address

end SolTrace
