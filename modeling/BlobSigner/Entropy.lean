import BlobSigner.Bn254.Field
/-!
# Random bytes and keys

Random bytes come from a generator, which draws on a stream; what a draw yields comes with the
generator as it is afterwards. The generator is told the size as a signed number of 32 bits, so a
draw of four gigabytes or more is filled only in part and ends in zeros. A random scalar is the
first chunk of thirty-two bytes that, less its two top bits, is a scalar other than zero.
-/
namespace BlobSigner.Entropy

/-- The generator has not enough bytes, is asked for fewer than none, or refuses. -/
inductive Failure where
  | generator
deriving DecidableEq, Repr

def Failure.message : Failure → String
  | .generator => "RAND_bytes failed"

/-! ## The generator -/

/-- What a generator is going to do: the bytes that it has, and which of its calls fail whatever it
has. Calls are counted from the next one. -/
structure Generator where
  stream : Bytes
  refuses : Nat → Bool

namespace Generator

/-- One that fails only if it has to. -/
def ofStream (stream : Bytes) : Generator := ⟨stream, fun _ => false⟩

/-- What is left after a call that takes `n` bytes. -/
def after (n : Nat) (g : Generator) : Generator := ⟨g.stream.drop n, fun i => g.refuses (i + 1)⟩

end Generator

/-- The call `RAND_bytes`: the next `n` bytes, or a failure. -/
def generate (n : Int) (g : Generator) : Except Failure (Bytes × Generator) :=
  if n < 0 ∨ g.stream.length < n ∨ g.refuses 0 = true then .error .generator
  else .ok (g.stream.take n.toNat, g.after n.toNat)

/-! ## Bytes -/

/-- A size as the generator is told it. -/
def signedSize (size : UInt64) : Int := (size.toNat : Int).bmod UInt32.size

/-- What a draw leaves in its buffer: the bytes of the generator, and zeros as far as it wrote none.
There can be gigabytes of zeros, so they are counted. -/
structure Draw where
  drawn : Bytes
  blank : Nat
deriving DecidableEq

/-- The whole buffer. -/
def Draw.toList (d : Draw) : Bytes := d.drawn ++ List.replicate d.blank 0

/-- For no bytes the generator is not asked. -/
def draw (size : UInt64) (g : Generator) : Except Failure (Draw × Generator) :=
  if size = 0 then .ok (⟨[], 0⟩, g)
  else match generate (signedSize size) g with
    | .error e => .error e
    | .ok (drawn, rest) => .ok (⟨drawn, size.toNat - drawn.length⟩, rest)

/-- `RandomBytes`. -/
def bytes (size : UInt64) (g : Generator) : Except Failure (Bytes × Generator) :=
  match draw size g with
  | .error e => .error e
  | .ok (d, rest) => .ok (d.toList, rest)

theorem length_rest_lt_of_bytes {g rest : Generator} {drawn : Bytes}
    (h : bytes 32 g = .ok (drawn, rest)) : rest.stream.length < g.stream.length := by
  have hsize : signedSize 32 = 32 := by decide
  rw [bytes, draw, if_neg (by decide), hsize, generate] at h
  split at h
  · cases h
  · rename_i hd
    split at hd
    · cases hd
    · rename_i hg
      split at hg
      · cases hg
      · cases hg
        cases hd
        cases h
        rw [Generator.after, List.length_drop]
        omega

/-! ## Scalars -/

/-- The scalar that a chunk stands for, unless it is zero or out of range. As scalars have 254 bits,
few chunks without their two top bits are. -/
def candidate? (chunk : Bytes) : Option Fr :=
  match Fr.ofBigEndian (chunk.modify 0 (· &&& 0x3f)) with
  | .ok k => if k = 0 then none else some k
  | .error _ => none

/-- `RandomNonZeroScalar`: chunk after chunk, up to the first that stands for a scalar. -/
def scalar (g : Generator) : Except Failure (Fr × Generator) :=
  match _ : bytes 32 g with
  | .error e => .error e
  | .ok (chunk, rest) =>
    match candidate? chunk with
    | some k => .ok (k, rest)
    | none => scalar rest
termination_by g.stream.length
decreasing_by exact length_rest_lt_of_bytes ‹_›

end BlobSigner.Entropy
