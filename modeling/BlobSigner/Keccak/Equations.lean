import BlobSigner.Integer.Radix
/-!
# Keccak-256 by its equations

The lanes stand in a square of five by five, and each layer of a round says what the new lane at
`(x, y)` is. Rotations and round constants follow from their rules and are in no table, and the
message is padded before it is cut into blocks. This form is slow; it says what the fast one has to
compute.
-/
namespace BlobSigner.Keccak.Equations

/-- The lanes of a square, row after row. -/
abbrev Square := Vector (BitVec 64) 25

/-- The lane in column `x` of row `y`. -/
def lane (s : Square) (x y : Fin 5) : BitVec 64 := s.getD (x.val + 5 * y.val) 0

/-- The square whose lane at `(x, y)` is `f x y`. -/
def square (f : Fin 5 → Fin 5 → BitVec 64) : Square :=
  Vector.ofFn fun i : Fin 25 => f (Fin.ofNat 5 i.val) ⟨i.val / 5, by omega⟩

@[simp] theorem lane_square (f : Fin 5 → Fin 5 → BitVec 64) (x y : Fin 5) :
    lane (square f) x y = f x y := by
  have hx : (x.val + 5 * y.val) % 5 = x.val := by omega
  have hy : (x.val + 5 * y.val) / 5 = y.val := by omega
  have hlt : x.val + 5 * y.val < 25 := by omega
  simp [lane, square, hx, hy, hlt, Fin.ofNat, Vector.getD]

/-! ## One round -/

def parity (s : Square) (x : Fin 5) : BitVec 64 :=
  lane s x 0 ^^^ lane s x 1 ^^^ lane s x 2 ^^^ lane s x 3 ^^^ lane s x 4

/-- Each lane takes up the parities of the two columns beside its own, one of them rotated. -/
def theta (s : Square) : Square :=
  square fun x y => lane s x y ^^^ (parity s (x - 1) ^^^ (parity s (x + 1)).rotateLeft 1)

/-- Where the walk from `(1, 0)` is after `t` steps from `(x, y)` to `(y, 2 x + 3 y)`. -/
def place (t : Nat) : Fin 5 × Fin 5 :=
  Nat.repeat (fun p => (p.2, 2 * p.1 + 3 * p.2)) t (1, 0)

/-- The walk comes to every place but `(0, 0)`, and the lane it comes to after `t` steps is rotated
by the triangular number of `t + 1`. -/
def offset (x y : Fin 5) : Nat :=
  match (List.range 24).find? (fun t => place t = (x, y)) with
  | some t => (t + 1) * (t + 2) / 2 % 64
  | none => 0

def rho (s : Square) : Square := square fun x y => (lane s x y).rotateLeft (offset x y)

/-- The lane at `(x, y)` goes to `(y, 2 x + 3 y)`. -/
def pi (s : Square) : Square := square fun x y => lane s (x + 3 * y) x

def chi (s : Square) : Square :=
  square fun x y => lane s x y ^^^ (~~~ lane s (x + 1) y &&& lane s (x + 2) y)

/-- The powers of `X` modulo `X⁸ + X⁶ + X⁵ + X⁴ + 1` over the field of two elements. -/
def register (t : Nat) : BitVec 8 :=
  Nat.repeat (fun v => (v <<< 1) ^^^ (if v.msb then 0x71 else 0)) t 1

/-- Bit `2 ^ j - 1` of the constant of round `i` is the lowest one of the register at `j + 7 i`. -/
def roundConstant (i : Nat) : BitVec 64 :=
  (List.range 7).foldl
    (fun c j => if (register (j + 7 * i)).getLsbD 0 then c ||| (1 <<< (1 <<< j - 1)) else c) 0

def iota (i : Nat) (s : Square) : Square :=
  square fun x y => if x = 0 ∧ y = 0 then lane s x y ^^^ roundConstant i else lane s x y

def round (s : Square) (i : Nat) : Square := iota i (chi (pi (rho (theta s))))

def permute (s : Square) : Square := (List.range 24).foldl round s

/-! ## The sponge -/

/-- Ones at both ends and zeros between, in so many bytes. -/
def padding : Nat → Bytes
  | 0 => []
  | 1 => [0x81]
  | n + 2 => 0x01 :: List.replicate n 0 ++ [0x80]

/-- The message with at least one byte more, up to a whole number of blocks of 136 bytes. -/
def pad (message : Bytes) : Bytes := message ++ padding (136 - message.length % 136)

/-- The first `n` blocks. -/
def blocks : Nat → Bytes → List Bytes
  | 0, _ => []
  | n + 1, b => b.take 136 :: blocks n (b.drop 136)

/-- Lane `i` of a block, its lowest byte first. -/
def blockLane (block : Bytes) (i : Nat) : BitVec 64 :=
  BitVec.ofNat 64 (Radix.ofLittleEndian ((block.drop (8 * i)).take 8))

/-- A block fills seventeen lanes, row after row; the others are the capacity. -/
def absorb (s : Square) (block : Bytes) : Square :=
  permute (square fun x y =>
    if x.val + 5 * y.val < 17 then lane s x y ^^^ blockLane block (x.val + 5 * y.val)
    else lane s x y)

/-- The first four lanes. -/
def squeeze (s : Square) : Bytes :=
  [lane s 0 0, lane s 1 0, lane s 2 0, lane s 3 0].flatMap fun l => Radix.littleEndian 8 l.toNat

def digest (message : Bytes) : Bytes :=
  let padded := pad message
  squeeze ((blocks (padded.length / 136) padded).foldl absorb (square fun _ _ => 0))

end BlobSigner.Keccak.Equations
