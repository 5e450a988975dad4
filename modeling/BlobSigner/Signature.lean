import BlobSigner.Blob
import BlobSigner.Bn254.Encoding
import BlobSigner.Bn254.Lift
import BlobSigner.Keccak.Sponge
/-!
# Signatures of blobs

What is signed is a message of 160 bytes: the root, epoch and quorum in words of thirty-two bytes,
and the commitment as a contract reads it. Its digest stands for a point, and the signature is that
point times the key.
-/
namespace BlobSigner

/-- `AppendU64AsWord`: a 64-bit number as a contract reads it, in thirty-two bytes. -/
def contractWord (w : UInt64) : Bytes := List.replicate 24 0 ++ Radix.bigEndian 8 w.toNat

namespace BlobKey

/-- `BlobVerifiedPreimage`: the message in which a quorum attests that it holds the blob. -/
def preimage (k : BlobKey) (commitment : G1) : Except ArithmeticError Bytes :=
  match commitment.verifierForm with
  | .error e => .error e
  | .ok (x, y) =>
    .ok (k.root.toList ++ contractWord k.epoch ++ contractWord k.quorum ++ x.toList ++ y.toList)

/-- `BlobVerifiedHash`: the point that stands for the message. -/
def hashPoint (k : BlobKey) (commitment : G1) : Except ArithmeticError G1 :=
  (k.preimage commitment).map fun b => G1.ofDigest (Keccak.digest b)

/-- The hash point times the key. -/
def signaturePoint (k : BlobKey) (commitment : G1) (key : Fr) : Except ArithmeticError G1 :=
  match k.hashPoint commitment with
  | .error e => .error e
  | .ok H => H.tryMul key

/-- `Sign`. -/
def sign (k : BlobKey) (commitment : G1) (key : Fr) : Except ArithmeticError Bytes :=
  match k.signaturePoint commitment key with
  | .error e => .error e
  | .ok S => S.encode

end BlobKey

end BlobSigner
