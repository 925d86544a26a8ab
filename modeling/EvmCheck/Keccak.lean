import EvmCheck.Code

/-!
# The Keccak-256 digest

The sponge works on a state of `5 × 5` lanes of 64 bits.  A message is padded
with a one bit, zeros and a final one bit to a multiple of the rate of 136
bytes; each block is added to the first 17 lanes, and the state is permuted
after every block.  The digest is the first four lanes.

The permutation is written layer by layer (`theta`, `rhoPi`, `chi`, `iota`),
each layer giving every lane of the new state by a formula in the old one.
-/

namespace EvmCheck

/-- A 256-bit digest. -/
structure Digest where
  /-- The digest as a number, its first byte the most significant. -/
  value : BitVec 256
  deriving DecidableEq

namespace Digest

/-- The number whose digits to the base 256 are the given bytes. -/
def ofBytes (bs : List UInt8) : Digest where
  value := BitVec.ofNat 256 (bs.foldl (fun n b => n * 256 + b.toNat) 0)

/-- The digest as text: `0x` and 64 lower-case hexadecimal digits. -/
def text (d : Digest) : String :=
  "0x" ++ Text.hexPadded 64 d.value.toNat

end Digest

namespace Keccak

/-- The state: the lane with coordinates `x` and `y` stands at `x + 5 * y`. -/
abbrev Lanes := Vector UInt64 25

/-- The lane with the given coordinates, both taken modulo 5. -/
def lane (s : Lanes) (x y : Nat) : UInt64 :=
  s.get ⟨x % 5 + 5 * (y % 5), by omega⟩

/-- The state whose lanes are given by their coordinates. -/
def ofLanes (f : Nat → Nat → UInt64) : Lanes :=
  Vector.ofFn fun i => f (i.val % 5) (i.val / 5)

/-- Rotation of a lane toward its higher bits. -/
def rotate (w : UInt64) (n : UInt64) : UInt64 :=
  (w <<< n) ||| (w >>> (64 - n))

/-- The parity of each column. -/
def columns (s : Lanes) : Vector UInt64 5 :=
  Vector.ofFn fun i =>
    let x := i.val
    lane s x 0 ^^^ lane s x 1 ^^^ lane s x 2 ^^^ lane s x 3 ^^^ lane s x 4

/-- Adds to each lane the parities of two neighbouring columns. -/
def theta (s : Lanes) : Lanes :=
  let c := columns s
  let column (x : Nat) : UInt64 := c.get ⟨x % 5, by omega⟩
  let d : Vector UInt64 5 :=
    Vector.ofFn fun i => column (i.val + 4) ^^^ rotate (column (i.val + 1)) 1
  ofLanes fun x y => lane s x y ^^^ d.get ⟨x % 5, by omega⟩

/-- The rotation of each lane. -/
def rotations : Lanes :=
  #v[0, 1, 62, 28, 27, 36, 44, 6, 55, 20, 3, 10, 43, 25, 39, 41, 45, 15, 21, 8,
    18, 2, 61, 56, 14]

/-- Rotates each lane and moves it to its new place: the lane for `x` and `y`
comes from `x + 3 * y` and `x`. -/
def rhoPi (s : Lanes) : Lanes :=
  ofLanes fun x y => rotate (lane s (x + 3 * y) x) (lane rotations (x + 3 * y) x)

/-- Combines each lane with the two to its right. -/
def chi (s : Lanes) : Lanes :=
  ofLanes fun x y => lane s x y ^^^ (~~~ lane s (x + 1) y &&& lane s (x + 2) y)

/-- Adds the constant of a round to the first lane. -/
def iota (s : Lanes) (constant : UInt64) : Lanes :=
  s.set 0 (s.get 0 ^^^ constant)

/-- One round of the permutation. -/
def round (s : Lanes) (constant : UInt64) : Lanes :=
  iota (chi (rhoPi (theta s))) constant

/-- The constants of the 24 rounds. -/
def roundConstants : List UInt64 :=
  [0x0000000000000001, 0x0000000000008082, 0x800000000000808a,
    0x8000000080008000, 0x000000000000808b, 0x0000000080000001,
    0x8000000080008081, 0x8000000000008009, 0x000000000000008a,
    0x0000000000000088, 0x0000000080008009, 0x000000008000000a,
    0x000000008000808b, 0x800000000000008b, 0x8000000000008089,
    0x8000000000008003, 0x8000000000008002, 0x8000000000000080,
    0x000000000000800a, 0x800000008000000a, 0x8000000080008081,
    0x8000000000008080, 0x0000000080000001, 0x8000000080008008]

/-- The permutation of the state. -/
def permute (s : Lanes) : Lanes :=
  roundConstants.foldl round s

/-- Bytes absorbed before each permutation. -/
def rate : Nat := 136

/-- Blocks of the padded message; the padding takes at least one byte. -/
def blockCount (message : Array UInt8) : Nat :=
  message.size / rate + 1

/-- The byte of the padded message at position `i`: the padding starts with the
byte `0x01` and sets the highest bit of the last byte. -/
def paddedByte (message : Array UInt8) (i : Nat) : UInt8 :=
  if i < message.size then message.getD i 0
  else
    (if i = message.size then 0x01 else 0x00) |||
      (if i + 1 = blockCount message * rate then 0x80 else 0x00)

/-- The eight bytes of the padded message from position `i` on, the lowest
byte first. -/
def paddedLane (message : Array UInt8) (i : Nat) : UInt64 :=
  (List.range 8).foldr
    (fun k w => (w <<< 8) ||| (paddedByte message (i + k)).toUInt64) 0

/-- Adds a block to the first lanes of the state. -/
def absorb (message : Array UInt8) (s : Lanes) (block : Nat) : Lanes :=
  Vector.ofFn fun i =>
    if i.val < rate / 8 then
      s.get i ^^^ paddedLane message (block * rate + 8 * i.val)
    else s.get i

/-- The bytes of a lane, the lowest first. -/
def laneBytes (w : UInt64) : List UInt8 :=
  (List.range 8).map fun k => (w >>> UInt64.ofNat (8 * k)).toUInt8

/-- The state after the whole padded message. -/
def absorbAll (message : Array UInt8) : Lanes :=
  (List.range (blockCount message)).foldl
    (fun s block => permute (absorb message s block)) (Vector.replicate 25 0)

/-- The Keccak-256 digest of a message. -/
def digest (message : Array UInt8) : Digest :=
  Digest.ofBytes (((absorbAll message).toList.take 4).flatMap laneBytes)

end Keccak

/-- The digest that stands for a piece of code. -/
def Code.digest (code : Code) : Digest :=
  Keccak.digest code

end EvmCheck
