import BlobSigner.Log
import BlobSigner.Status
/-!
# Admission

At most so many calls are in progress at a time. A call over the limit is turned away at once; it
never waits.
-/
namespace BlobSigner

/-- `AdmissionController`. -/
structure Admission where
  max : Nat
  ongoing : Nat
  max_pos : 0 < max

namespace Admission

/-- Calls at a time unless told otherwise. -/
def defaultMax : UInt64 := 10

/-- Why there is no admission with this limit. -/
inductive LimitError where
  | zero
deriving DecidableEq, Repr

def LimitError.message : LimitError → String
  | .zero => "max ongoing sign requests must be > 0"

def ofMax (max : UInt64) : Except LimitError Admission :=
  if h : 0 < max.toNat then .ok ⟨max.toNat, 0, h⟩ else .error .zero

/-- Nothing in progress, and the default limit. -/
def idle : Admission := ⟨defaultMax.toNat, 0, by decide⟩

/-- `Enter`. -/
def enter? (a : Admission) : Option Admission :=
  if a.ongoing < a.max then some { a with ongoing := a.ongoing + 1 } else none

/-- `Exit`. -/
def leave (a : Admission) : Admission := { a with ongoing := a.ongoing - 1 }

/-- What a call that is turned away is told. -/
def overloaded : SignError := ⟨.overloaded, "request pool is full"⟩

/-- What the log says of it. -/
def fullWarning (a : Admission) : LogRecord :=
  ⟨.admission, .warn, s!"rejecting batch sign call, {a.max} calls already in flight"⟩

end Admission

end BlobSigner
