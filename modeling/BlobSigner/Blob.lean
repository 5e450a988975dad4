import BlobSigner.Bytes
/-!
# Blobs

A blob is named by its epoch, the quorum that keeps it and its storage root. Its record says
whether it awaits signatures.
-/
namespace BlobSigner

structure QuorumKey where
  epoch : UInt64
  quorum : UInt64
deriving DecidableEq

structure BlobKey where
  epoch : UInt64
  quorum : UInt64
  root : StorageRoot
deriving DecidableEq

def BlobKey.quorumKey (k : BlobKey) : QuorumKey := ⟨k.epoch, k.quorum⟩

/-- The byte of a blob's record; two of its values mean something. -/
structure BlobStatus where
  code : UInt8
deriving DecidableEq, Repr

namespace BlobStatus

/-- The blob is stored and awaits signatures. -/
def uploaded : BlobStatus := ⟨1⟩

/-- The quorum's signatures have been put together. -/
def verified : BlobStatus := ⟨2⟩

/-- `BlobStatusName`. -/
def name (s : BlobStatus) : String :=
  if s = uploaded then "uploaded" else if s = verified then "verified" else "unknown"

end BlobStatus

end BlobSigner
