/-!
# The permutation of Keccak

The state is a five by five square of 64-bit lanes, `(x, y)` at index `x + 5 y`. A round mixes
columns (`theta`), rotates lanes and moves them about (`rhoPi`), mixes rows (`chi`) and breaks the
symmetry with a constant (`iota`). Rotation and movement are done in one walk through the lanes,
each taking the place of the next.
-/
namespace BlobSigner.Keccak

abbrev Lanes := Vector UInt64 25

def zero : Lanes := Vector.replicate 25 0

/-- The lane at an index below 25. -/
def lane (s : Lanes) (i : Nat) : UInt64 := s.getD i 0

/-- `RotateLeft`. -/
def rotateLeft (w n : UInt64) : UInt64 := (w <<< n) ||| (w >>> (64 - n))

/-! ## The steps of a round -/

/-- The sum of column `x`. -/
def column (s : Lanes) (x : Nat) : UInt64 :=
  lane s x ^^^ lane s (x + 5) ^^^ lane s (x + 10) ^^^ lane s (x + 15) ^^^ lane s (x + 20)

/-- Each lane takes up the sums of the two columns beside its own. -/
def theta (s : Lanes) : Lanes :=
  let sums := Vector.ofFn fun x : Fin 5 => column s x.val
  let beside := Vector.ofFn fun x : Fin 5 =>
    sums.getD ((x.val + 4) % 5) 0 ^^^ rotateLeft (sums.getD ((x.val + 1) % 5) 0) 1
  Vector.ofFn fun i : Fin 25 => lane s i.val ^^^ beside.getD (i.val % 5) 0

/-- The lanes in the order of the walk, from the one after `(1, 0)`, and the rotation of the lane
that moves there. -/
def walk : List (Nat × UInt64) :=
  [(10, 1), (7, 3), (11, 6), (17, 10), (18, 15), (3, 21), (5, 28), (16, 36), (8, 45), (21, 55),
   (24, 2), (4, 14), (15, 27), (23, 41), (19, 56), (13, 8), (12, 25), (2, 43), (20, 62), (14, 18),
   (22, 39), (9, 61), (6, 20), (1, 44)]

/-- The lane in hand is put down, rotated, and the one that lay there is taken up. -/
def exchange (w : Lanes × UInt64) (step : Nat × UInt64) : Lanes × UInt64 :=
  (w.1.setIfInBounds step.1 (rotateLeft w.2 step.2), lane w.1 step.1)

def rhoPi (s : Lanes) : Lanes := (walk.foldl exchange (s, lane s 1)).1

/-- Each lane takes up what the next two of its row say. -/
def chi (s : Lanes) : Lanes :=
  Vector.ofFn fun i : Fin 25 =>
    let row := i.val / 5 * 5
    lane s i.val ^^^ (~~~ lane s (row + (i.val + 1) % 5) &&& lane s (row + (i.val + 2) % 5))

def iota (rc : UInt64) (s : Lanes) : Lanes := s.setIfInBounds 0 (lane s 0 ^^^ rc)

def round (s : Lanes) (rc : UInt64) : Lanes := iota rc (chi (rhoPi (theta s)))

/-! ## Twenty-four rounds -/

def roundConstants : List UInt64 :=
  [0x0000000000000001, 0x0000000000008082, 0x800000000000808A, 0x8000000080008000,
   0x000000000000808B, 0x0000000080000001, 0x8000000080008081, 0x8000000000008009,
   0x000000000000008A, 0x0000000000000088, 0x0000000080008009, 0x000000008000000A,
   0x000000008000808B, 0x800000000000008B, 0x8000000000008089, 0x8000000000008003,
   0x8000000000008002, 0x8000000000000080, 0x000000000000800A, 0x800000008000000A,
   0x8000000080008081, 0x8000000000008080, 0x0000000080000001, 0x8000000080008008]

/-- `KeccakF1600`. -/
def permute (s : Lanes) : Lanes := roundConstants.foldl round s

end BlobSigner.Keccak
