import BlobSigner.Bn254.Field
/-!
# Wiping secrets

A value that held a secret is wiped once it has been used: what is left tells nothing of it.
-/
namespace BlobSigner

/-- `SecureZeroize`. -/
class Wipe (α : Type) where
  wipe : α → α

export Wipe (wipe)

instance : Wipe Fr := ⟨fun _ => 0⟩

instance {α : Type} : Wipe (Option α) := ⟨fun _ => none⟩

instance : Wipe Bytes := ⟨fun _ => []⟩

instance : Wipe String := ⟨fun _ => ""⟩

end BlobSigner
