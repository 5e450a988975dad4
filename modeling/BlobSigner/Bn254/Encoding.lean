import BlobSigner.Bn254.Point
/-!
# Points as bytes

The uncompressed form is `x` and `y`, thirty-two bytes each, little-endian. The two top bits of the
last byte are free, since coordinates have 254 bits: one marks infinity, the other the larger of
two opposite `y`. A contract that verifies signatures receives the two coordinates big-endian, and
infinity as two zeros.
-/
namespace BlobSigner

namespace G1

/-- The bit of the last byte that marks the larger of two opposite `y`. -/
def largerFlag : UInt8 := 0x80

/-- The bit of the last byte that marks infinity. -/
def infinityFlag : UInt8 := 0x40

/-! ## Uncompressed form -/

inductive FormError where
  | length
  | coordinate (e : Fq.FormError)
  | point (e : PointError)
deriving DecidableEq, Repr

def FormError.message : FormError → String
  | .length => "G1 point encoding must be exactly 64 bytes"
  | .coordinate e => e.message
  | .point e => e.message

/-- The last byte with the bits of `flag` set. -/
def markLast (flag : UInt8) (b : Bytes) : Bytes := b.modify (b.length - 1) (· ||| flag)

/-- The last byte without its two top bits. -/
def unmarkLast (b : Bytes) : Bytes := b.modify (b.length - 1) (· &&& 0x3f)

/-- `EncodeG1Uncompressed`, which `EncodeSignature` is too. -/
def encode : G1 → Except ArithmeticError Bytes
  | infinity => .ok (markLast infinityFlag (List.replicate 64 0))
  | affine x y =>
    match x.toLittleEndian, y.toLittleEndian with
    | .ok bx, .ok by_ =>
      let body := bx.toList ++ by_.toList
      .ok (if y.IsLarger then markLast largerFlag body else body)
    | .error e, _ => .error e
    | _, .error e => .error e

/-- `DecodeG1Uncompressed`. With the infinity bit set nothing else is looked at; the other bit is
never checked. -/
def decode (b : Bytes) : Except FormError G1 :=
  if b.length ≠ 64 then .error .length
  else if (b.getLastD 0) &&& infinityFlag ≠ 0 then .ok infinity
  else match Fq.ofLittleEndian (b.take 32) with
    | .error e => .error (.coordinate e)
    | .ok x =>
      match Fq.ofLittleEndian (unmarkLast (b.drop 32)) with
      | .error e => .error (.coordinate e)
      | .ok y => (ofAffine x y).mapError .point

/-! ## The verifier's form -/

/-- `SerializeForVerifier`: the coordinates as a contract reads them. -/
def verifierForm : G1 → Except ArithmeticError (Bytes32 × Bytes32)
  | infinity => .ok (.zero, .zero)
  | affine x y =>
    match x.toBigEndian, y.toBigEndian with
    | .ok bx, .ok by_ => .ok (bx, by_)
    | .error e, _ => .error e
    | _, .error e => .error e

end G1

end BlobSigner
