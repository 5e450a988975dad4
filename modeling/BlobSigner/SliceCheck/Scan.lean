import BlobSigner.Rejection
/-!
# Checking slices one after the other

The plain form of the check: position after position, up to the first failure. The pool has to find
the same, whatever its schedule.
-/
namespace BlobSigner.SliceCheck

/-- The slices of positions `i`, `i + 1`, …, each with its expected index, and the proofs asked
for. -/
def scan (check : SliceCheck) (root : StorageRoot) (commitment : G1) (i : Nat) :
    List (Slice × UInt64) → Except Rejection Unit × List SliceCall
  | [] => (.ok (), [])
  | (slice, expected) :: rest =>
    let call : SliceCall := ⟨i, slice, commitment, root⟩
    if slice.index ≠ expected then (.error (.sliceIndex i slice.index expected), [])
    else
      match check slice commitment root with
      | .accepted =>
        let (verdict, calls) := scan check root commitment (i + 1) rest
        (verdict, call :: calls)
      | .refused reason => (.error (.sliceProof slice.index reason), [call])
      | .crashed reason => (.error (.sliceProof slice.index (clip reason)), [call])

end BlobSigner.SliceCheck
