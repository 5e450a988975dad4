import BlobSigner.Bn254.Commitment
import BlobSigner.SliceCheck
import BlobSigner.Status
/-!
# Why a request is refused

One constructor for each cause. A cause has a kind, a message, and the warnings that the component
which found it writes on the spot.
-/
namespace BlobSigner

inductive Rejection where
  | root (e : RootError)
  | commitment (e : Commitment.Error)
  | slice (position : Nat) (e : Slice.FormError)
  | statusUnreadable (why : String)
  | blobUnknown
  | blobVerified
  /-- The blob's record holds no known status. -/
  | statusCorrupt
  | countUnavailable (epoch : UInt64) (why : String)
  | quorumOutOfBound (quorum epoch count : UInt64)
  | assignmentUnreadable (why : String)
  | quorumUnassigned
  | sliceCount (expected received : Nat)
  | sliceIndex (position : Nat) (index expected : UInt64)
  | sliceProof (index : UInt64) (reason : String)
  /-- Point arithmetic failed where it cannot. -/
  | arithmetic (e : ArithmeticError)
deriving DecidableEq, Repr

namespace Rejection

def kind : Rejection → ErrorKind
  | root _ => .malformedInput
  | commitment _ => .malformedInput
  | slice _ _ => .malformedInput
  | statusUnreadable _ => .dependencyFailure
  | blobUnknown => .lifecycleViolation
  | blobVerified => .lifecycleViolation
  | statusCorrupt => .dependencyFailure
  | countUnavailable _ _ => .dependencyFailure
  | quorumOutOfBound _ _ _ => .assignmentMismatch
  | assignmentUnreadable _ => .dependencyFailure
  | quorumUnassigned => .dependencyFailure
  | sliceCount _ _ => .assignmentMismatch
  | sliceIndex _ _ _ => .assignmentMismatch
  | sliceProof _ _ => .cryptographicFailure
  | arithmetic _ => .dependencyFailure

/-- The index in place of the expected one. -/
def indexDetail (position : Nat) (index expected : UInt64) : String :=
  s!"slice at position {position} has index {index.toNat}, expected {expected.toNat}"

/-- A proof check that gives no reason still fails the slice. -/
def proofDetail (index : UInt64) (reason : String) : String :=
  s!"slice {index.toNat}: " ++ (if reason = "" then "invalid proof" else reason)

def message : Rejection → String
  | root e => "storage root: " ++ e.message
  | commitment e => "incorrect commitment: " ++ e.message
  | slice position e => s!"failed to deserialize slice {position}: " ++ e.message
  | statusUnreadable why => "failed to read blob status: " ++ why
  | blobUnknown => "blob not found"
  | blobVerified => "blob verified already"
  | statusCorrupt => "blob status record is corrupt"
  | countUnavailable epoch why =>
    "internal error on verification: " ++
      s!"failed to fetch quorum count for epoch {epoch.toNat}: " ++ why
  | quorumOutOfBound _ _ _ => "quorum_id out of bound"
  | assignmentUnreadable why => "internal error on verification: " ++ why
  | quorumUnassigned => "internal error on verification: quorum not found"
  | sliceCount _ _ => "received slices and assigned slices are mismatch"
  | sliceIndex position index expected =>
    "received slices and assigned slices are mismatch: " ++ indexDetail position index expected
  | sliceProof index reason => "verification failed: " ++ clip (proofDetail index reason)
  | arithmetic e => e.message

/-- The warning that a finding leaves in the verifier's log. -/
def sliceWarning (detail : String) : LogRecord :=
  ⟨.verifier, .warn, "slice verification failed: " ++ detail⟩

/-- What the component that found the cause writes. -/
def warnings : Rejection → List LogRecord
  | commitment e => e.warnings
  | quorumOutOfBound quorum epoch count =>
    [⟨.verifier, .warn,
      s!"quorum_id {quorum.toNat} out of bound, epoch {epoch.toNat} has {count.toNat} quorums"⟩]
  | sliceCount expected received =>
    [⟨.verifier, .warn, s!"expected {expected} slices, received {received}"⟩]
  | sliceIndex position index expected => [sliceWarning (indexDetail position index expected)]
  | sliceProof index reason => [sliceWarning (proofDetail index reason)]
  | _ => []

def error (r : Rejection) : SignError := ⟨r.kind, r.message⟩

end Rejection

/-- The cause that a finding is, unless it is good. -/
def Finding.rejection? : Finding → Option Rejection
  | .passed => none
  | .misplaced position index expected => some (.sliceIndex position index expected)
  | .refused index reason => some (.sliceProof index reason)

namespace SliceCheck

/-- `VerifyAssignedSlices`: exactly the assigned slices, in order, each with a good proof; else the
lowest position that fails is the cause. -/
def verify (pool : Pool) (check : SliceCheck) (schedule : Pool.Schedule) (root : StorageRoot)
    (commitment : G1) (assigned : List UInt64) (slices : List Slice) :
    Except Rejection Unit × List SliceCall :=
  if assigned.length ≠ slices.length then
    (.error (.sliceCount assigned.length slices.length), [])
  else
    let (found, calls) := findings pool check schedule root commitment (slices.zip assigned)
    match found.findSome? Finding.rejection? with
    | some r => (.error r, calls)
    | none => (.ok (), calls)

end SliceCheck

end BlobSigner
