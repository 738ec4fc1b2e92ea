/-!
# SHA3-256

The hash function with 256 bits of output: the sponge over the permutation Keccak-f[1600] with a rate of 136 bytes.
-/

namespace Graft.Sha3

/-- The state of the permutation: 25 lanes, the lane in column `x` of plane `y` at `x + 5 * y`. -/
abbrev State := Vector UInt64 25

/-- The lane in column `x` of plane `y`, both modulo 5. -/
def lane (a : State) (x y : Nat) : UInt64 := a.get (Fin.ofNat 25 (x % 5 + 5 * (y % 5)))

/-- The word with its bits moved to the left by `n` places, those that leave it on the left coming in on the right. -/
def rotate (w n : UInt64) : UInt64 := (w <<< n) ||| (w >>> (64 - n))

/-- The rotation of each lane. -/
def offsets : Vector UInt64 25 :=
  #v[0, 1, 62, 28, 27, 36, 44, 6, 55, 20, 3, 10, 43, 25, 39, 41, 45, 15, 21, 8, 18, 2, 61, 56, 14]

/-- The constants of the rounds. -/
def roundConstants : List UInt64 :=
  [0x0000000000000001, 0x0000000000008082, 0x800000000000808A, 0x8000000080008000, 0x000000000000808B,
    0x0000000080000001, 0x8000000080008081, 0x8000000000008009, 0x000000000000008A, 0x0000000000000088,
    0x0000000080008009, 0x000000008000000A, 0x000000008000808B, 0x800000000000008B, 0x8000000000008089,
    0x8000000000008003, 0x8000000000008002, 0x8000000000000080, 0x000000000000800A, 0x800000008000000A,
    0x8000000080008081, 0x8000000000008080, 0x0000000080000001, 0x8000000080008008]

/-- The sum of the lanes in column `x`. -/
def parity (a : State) (x : Nat) : UInt64 := lane a x 0 ^^^ lane a x 1 ^^^ lane a x 2 ^^^ lane a x 3 ^^^ lane a x 4

/-- Adds to each lane the columns on both sides of its own. -/
def theta (a : State) : State :=
  let c : Vector UInt64 5 := Vector.ofFn fun x => parity a x
  let d : Vector UInt64 5 :=
    Vector.ofFn fun x => c.get (Fin.ofNat 5 (x + 4)) ^^^ rotate (c.get (Fin.ofNat 5 (x + 1))) 1
  Vector.ofFn fun i => a.get i ^^^ d.get (Fin.ofNat 5 i)

/-- Rotates each lane and moves it to its new place. -/
def rhoPi (a : State) : State :=
  Vector.ofFn fun i =>
    let x := i.val % 5
    let y := i.val / 5
    rotate (lane a (x + 3 * y) x) (lane offsets (x + 3 * y) x)

/-- Combines each lane with the next two of its plane. -/
def chi (a : State) : State :=
  Vector.ofFn fun i =>
    let x := i.val % 5
    let y := i.val / 5
    a.get i ^^^ (~~~(lane a (x + 1) y) &&& lane a (x + 2) y)

/-- One round with its constant. -/
def round (a : State) (constant : UInt64) : State :=
  let b := chi (rhoPi (theta a))
  b.set 0 (b.get 0 ^^^ constant)

/-- The permutation Keccak-f[1600]. -/
def permute (a : State) : State := roundConstants.foldl round a

/-- The number of bytes that one call of the permutation takes in. -/
def rate : Nat := 136

/-- The word whose bytes, the least significant first, start at place `i`. -/
def wordAt (block : Array UInt8) (i : Nat) : UInt64 :=
  (List.range 8).foldr (fun k w => (w <<< 8) ||| (block.getD (i + k) 0).toUInt64) 0

/-- The state with a block added to its first lanes. -/
def addBlock (a : State) (block : Array UInt8) : State :=
  Vector.ofFn fun i => if i.val < rate / 8 then a.get i ^^^ wordAt block (8 * i.val) else a.get i

/-- The state after taking in `n` blocks. -/
def absorb : Nat → State → List UInt8 → State
  | 0, a, _ => a
  | n + 1, a, bytes => absorb n (permute (addBlock a (bytes.take rate).toArray)) (bytes.drop rate)

/-- What follows a message of a given length: the bits 01 of the hash function, then 1, zeros and 1 up to a full
block. -/
def padding (length : Nat) : List UInt8 :=
  let gap := rate - length % rate
  if gap = 1 then [0x86] else 0x06 :: List.replicate (gap - 2) 0 ++ [0x80]

/-- The 32 bytes of the digest of a message. -/
def digest (message : List UInt8) : List UInt8 :=
  let padded := message ++ padding message.length
  let a := absorb (padded.length / rate) (Vector.replicate 25 0) padded
  (List.range 32).map fun i => (lane a (i / 8) 0 >>> UInt64.ofNat (8 * (i % 8))).toUInt8

end Graft.Sha3
