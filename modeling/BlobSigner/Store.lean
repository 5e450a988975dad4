import BlobSigner.Blob
import BlobSigner.ErrorText
import BlobSigner.Slice
import BlobSigner.Table
/-!
# Storage

Three tables: the status of each blob, the slice indices assigned to each quorum, and the slices
that have been persisted. Reads and writes can fail, as the outage in force says.
-/
namespace BlobSigner

/-- Which operations of the storage fail, and with what text. -/
structure Outage where
  statusReads : Bool
  assignmentReads : Bool
  /-- Writes that still succeed; without a number, all do. -/
  writesLeft : Option Nat
  message : String
deriving DecidableEq, Repr

namespace Outage

def none : Outage := ⟨false, false, Option.none, ""⟩

/-- One write fewer is left. -/
def spend (o : Outage) : Outage := { o with writesLeft := o.writesLeft.map (· - 1) }

end Outage

structure Store where
  statuses : Table BlobKey BlobStatus
  assignments : Table QuorumKey (List UInt64)
  slices : Table BlobKey (List Slice)
  outage : Outage

namespace Store

def empty : Store := ⟨∅, ∅, ∅, .none⟩

def failure (s : Store) : String := clip s.outage.message

/-! ## Reading -/

/-- `GetBlobStatus`. -/
def readStatus (s : Store) (k : BlobKey) : Except String (Option BlobStatus) :=
  if s.outage.statusReads then .error s.failure else .ok (s.statuses.get? k)

/-- `GetAssignedSlices`. -/
def readAssignment (s : Store) (k : QuorumKey) : Except String (Option (List UInt64)) :=
  if s.outage.assignmentReads then .error s.failure else .ok (s.assignments.get? k)

/-! ## Writing -/

/-- `SetBlobStatus`. -/
def setStatus (s : Store) (k : BlobKey) (status : BlobStatus) : Store :=
  { s with statuses := s.statuses.insert k status }

/-- `SetAssignedSlices`. -/
def setAssignment (s : Store) (k : QuorumKey) (indices : List UInt64) : Store :=
  { s with assignments := s.assignments.insert k indices }

/-- `PutSlices`: slices put under a blob replace those that were there. -/
def putSlices (s : Store) (k : BlobKey) (slices : List Slice) : Except String Store :=
  if s.outage.writesLeft = some 0 then .error s.failure
  else .ok { s with slices := s.slices.insert k slices, outage := s.outage.spend }

/-- All switches are set anew; without a text the last one stays. -/
def setOutage (s : Store) (statusReads assignmentReads : Bool) (writesLeft : Option Nat)
    (message : Option String) : Store :=
  { s with outage := ⟨statusReads, assignmentReads, writesLeft, message.getD s.outage.message⟩ }

end Store

end BlobSigner
