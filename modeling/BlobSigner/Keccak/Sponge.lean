import BlobSigner.Bytes
import BlobSigner.Keccak.Permutation
/-!
# Keccak-256

The message is absorbed in blocks of 136 bytes. What is left fills a last block, marked with a one
after the message and a one at the very end; the digest is the first thirty-two bytes of the state.
-/
namespace BlobSigner.Keccak

/-- Bytes per block. -/
def rate : Nat := 136

/-- Eight bytes of the block, the first the lowest. -/
def blockLane (block : Bytes) (lane : Nat) : UInt64 :=
  ((block.drop (8 * lane)).take 8).foldr (fun b w => (w <<< 8) ||| b.toUInt64) 0

/-- The block in the first seventeen lanes, and nothing in the others. -/
def blockLanes (block : Bytes) : Lanes :=
  Vector.ofFn fun i : Fin 25 => if i.val < 17 then blockLane block i.val else 0

/-- `AbsorbBlock`: the block is added to the state, and the state permuted. -/
def absorb (s : Lanes) (block : Bytes) : Lanes :=
  permute (Vector.zipWith (· ^^^ ·) s (blockLanes block))

/-- All full blocks, and the bytes left over. -/
def absorbBlocks (s : Lanes) (data : Bytes) : Lanes × Bytes :=
  if _ : rate ≤ data.length then absorbBlocks (absorb s (data.take rate)) (data.drop rate)
  else (s, data)
termination_by data.length
decreasing_by simp [rate] at *; omega

/-- Fewer bytes than a block holds, padded to a block; with one byte free both marks share it. -/
def lastBlock (tail : Bytes) : Bytes :=
  let filled := tail ++ List.replicate (rate - tail.length) 0
  (filled.modify tail.length (· ^^^ 0x01)).modify (rate - 1) (· ^^^ 0x80)

/-- Byte `i` of the state. -/
def squeezeByte (s : Lanes) (i : Fin 32) : UInt8 :=
  (lane s (i.val / 8) >>> (8 * (i.val % 8)).toUInt64).toUInt8

def squeeze (s : Lanes) : Bytes32 := ⟨List.ofFn (squeezeByte s), by simp⟩

/-- `Keccak256`. -/
def digest (data : Bytes) : Bytes32 :=
  let (s, tail) := absorbBlocks zero data
  squeeze (absorb s (lastBlock tail))

end BlobSigner.Keccak
