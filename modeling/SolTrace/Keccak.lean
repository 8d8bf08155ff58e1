import SolTrace.Word
/-!
The hash function Keccak-256: a sponge over 25 lanes of 64 bits that takes in 136 bytes at a time.
-/
set_option autoImplicit false

namespace SolTrace.Keccak

abbrev Lanes := Vector UInt64 25

/-- The lane in column `x` and row `y`, both taken modulo five. -/
def Lanes.lane (lanes : Lanes) (x y : Nat) : UInt64 :=
  lanes.get ⟨x % 5 + 5 * (y % 5), by omega⟩

def tabulate (f : Nat → Nat → UInt64) : Lanes :=
  Vector.ofFn fun i => f (i.val % 5) (i.val / 5)

def rotate (lane : UInt64) (n : Nat) : UInt64 :=
  if n = 0 then lane
  else (lane <<< UInt64.ofNat n) ||| (lane >>> UInt64.ofNat (64 - n))

/-- How far each lane is rotated, row by row. -/
def offsets : Vector Nat 25 :=
  #v[0, 1, 62, 28, 27, 36, 44, 6, 55, 20, 3, 10, 43, 25, 39, 41, 45, 15, 21, 8, 18, 2, 61, 56, 14]

def offset (x y : Nat) : Nat :=
  offsets.get ⟨x % 5 + 5 * (y % 5), by omega⟩

def roundConstants : List UInt64 :=
  [0x0000000000000001, 0x0000000000008082, 0x800000000000808A, 0x8000000080008000,
    0x000000000000808B, 0x0000000080000001, 0x8000000080008081, 0x8000000000008009,
    0x000000000000008A, 0x0000000000000088, 0x0000000080008009, 0x000000008000000A,
    0x000000008000808B, 0x800000000000008B, 0x8000000000008089, 0x8000000000008003,
    0x8000000000008002, 0x8000000000000080, 0x000000000000800A, 0x800000008000000A,
    0x8000000080008081, 0x8000000000008080, 0x0000000080000001, 0x8000000080008008]

/-- Adds to each lane the parities of two neighbouring columns. -/
def theta (a : Lanes) : Lanes :=
  let parity : Vector UInt64 5 := Vector.ofFn fun x =>
    a.lane x 0 ^^^ a.lane x 1 ^^^ a.lane x 2 ^^^ a.lane x 3 ^^^ a.lane x 4
  tabulate fun x y =>
    a.lane x y ^^^ parity.get ⟨(x + 4) % 5, by omega⟩ ^^^
      rotate (parity.get ⟨(x + 1) % 5, by omega⟩) 1

/-- Rotates each lane and moves it to its new place. -/
def rhoPi (a : Lanes) : Lanes :=
  tabulate fun x y => rotate (a.lane (x + 3 * y) x) (offset (x + 3 * y) x)

def chi (a : Lanes) : Lanes :=
  tabulate fun x y => a.lane x y ^^^ (~~~a.lane (x + 1) y &&& a.lane (x + 2) y)

def iota (constant : UInt64) (a : Lanes) : Lanes :=
  a.set 0 (a.lane 0 0 ^^^ constant)

def permute (a : Lanes) : Lanes :=
  roundConstants.foldl (fun a constant => iota constant (chi (rhoPi (theta a)))) a

def rate : Nat := 136

/-- Fills the last block: a first and a last mark with zeros in between. -/
def pad (message : List UInt8) : List UInt8 :=
  let free := rate - message.length % rate
  if free = 1 then message ++ [0x81]
  else message ++ 0x01 :: List.replicate (free - 2) 0 ++ [0x80]

/-- The lane of eight bytes, least significant first. -/
def laneOf (bytes : List UInt8) : UInt64 :=
  bytes.foldr (fun byte lane => lane <<< 8 ||| byte.toUInt64) 0

def absorb (a : Lanes) (block : Array UInt8) : Lanes :=
  permute <| tabulate fun x y =>
    let i := x + 5 * y
    if i < 17 then a.lane x y ^^^ laneOf (block.extract (8 * i) (8 * i + 8)).toList
    else a.lane x y

/-- Takes in the blocks of a message. The fuel bounds their number. -/
def absorbAll : Nat → Lanes → List UInt8 → Lanes
  | 0, a, _ => a
  | fuel + 1, a, message =>
      match message with
      | [] => a
      | message => absorbAll fuel (absorb a (message.take rate).toArray) (message.drop rate)

def laneBytes (lane : UInt64) : List UInt8 :=
  (bigEndian 8 lane.toNat).reverse

end Keccak

def keccak256 (message : List UInt8) : Word :=
  let padded := Keccak.pad message
  let lanes := Keccak.absorbAll (padded.length / Keccak.rate) (Vector.replicate 25 0) padded
  Word.ofBytes ((List.range 4).flatMap fun x => Keccak.laneBytes (Keccak.Lanes.lane lanes x 0))

end SolTrace
