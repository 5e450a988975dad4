import BlobSigner.Admission
import BlobSigner.ErrorText
import BlobSigner.Rejection
import BlobSigner.Store
/-!
# The node and its surroundings

What a signer node holds, what it is asked, and what it asks of others. Work on a node yields an
answer, the node afterwards and the events on the way, in order.
-/
namespace BlobSigner

/-! ## What comes in and goes out -/

/-- `SignRequest`: a request as it arrives, with nothing decoded. -/
structure Request where
  epoch : UInt64
  quorum : UInt64
  root : Bytes
  commitment : Bytes
  slices : List Bytes
deriving DecidableEq

/-- `BatchSignRequest`. -/
structure Batch where
  requests : List Request
  /-- Where the batch came from; only the log shows it. -/
  peer : String
deriving DecidableEq

/-- `BatchSignReply`, and the status that comes with it. -/
structure Reply where
  status : Status
  /-- One for each request, in order, or none at all. -/
  signatures : List Bytes
deriving DecidableEq

/-- What is said to a caller whose reply has no place. -/
def noPlaceMessage : String := "BatchSign reply must not be null"

/-! ## What is asked of others -/

/-- Why a look-up ends without a count. -/
inductive LookupError where
  /-- The chain gave none. -/
  | chain (why : String)
  /-- A batch was to be signed whose reply had no place. -/
  | noPlace
deriving DecidableEq, Repr

def LookupError.message : LookupError → String
  | chain why => clip why
  | noPlace => noPlaceMessage

/-- A look-up on the chain in progress. Before it has its answer it may have batches signed by the
same node, and see the replies; and it may fetch counts from the cache that it works for, and see
these, or why there is none. -/
inductive Lookup where
  | answer (result : Except LookupError UInt64)
  | call (batch : Batch) (next : Reply → Lookup)
  /-- If the cache does not know the count of the epoch, it makes the look-up `inner`. -/
  | fetch (epoch : UInt64) (inner : Lookup) (next : Except LookupError UInt64 → Lookup)

structure Surroundings where
  /-- The look-up of an epoch's quorum count; look-ups are numbered as they are made. -/
  lookup : Nat → UInt64 → Lookup
  check : SliceCheck
  /-- The order of events in the pool, for each slice check in turn. -/
  schedule : Nat → Pool.Schedule

/-! ## The node -/

structure Node where
  store : Store
  /-- Quorum counts by epoch, as far as they are known. -/
  counts : Table UInt64 UInt64
  admission : Admission
  /-- Look-ups made so far. -/
  lookups : Nat
  /-- Slice checks made so far. -/
  rounds : Nat

namespace Node

def init (a : Admission) : Node := ⟨.empty, ∅, a, 0, 0⟩

/-- What a node cannot be without. -/
inductive Lack where
  | storage
  | lookup
deriving DecidableEq, Repr

def Lack.message : Lack → String
  | .storage => "SharedStorage requires a storage backend"
  | .lookup => "QuorumCountCache requires a fetcher"

/-- A node over a storage, with a way to look counts up. -/
def assemble (storage : Option Store) (lookup : Option (Nat → UInt64 → Lookup)) (a : Admission) :
    Except Lack Node :=
  match storage, lookup with
  | none, _ => .error .storage
  | _, none => .error .lookup
  | some store, some _ => .ok { init a with store := store }

end Node

/-! ## Events -/

inductive Event where
  | log (record : LogRecord)
  /-- A call is admitted, and is one of so many. -/
  | enter (ongoing : Nat)
  /-- An admitted call ends, and so many are left. -/
  | leave (ongoing : Nat)
  | readStatus (key : BlobKey) (result : Except String (Option BlobStatus))
  | readAssignment (key : QuorumKey) (result : Except String (Option (List UInt64)))
  | lookup (epoch : UInt64)
  | checkSlice (call : SliceCall)
  | write (key : BlobKey) (slices : List Slice) (stored : Bool)
  /-- A call made by a look-up has ended, and so many are left. -/
  | answered (reply : Reply) (ongoing : Nat)

/-- Work done on a node. -/
structure Traced (α : Type) where
  value : α
  node : Node
  events : List Event

namespace Traced

variable {α β ε : Type}

/-- Nothing happens. -/
def of (value : α) (n : Node) : Traced α := ⟨value, n, []⟩

/-- Goes on with a good answer; a bad one ends the work. -/
def andThen (t : Traced (Except ε α)) (next : α → Node → Traced (Except ε β)) :
    Traced (Except ε β) :=
  match t.value with
  | .error e => ⟨.error e, t.node, t.events⟩
  | .ok a =>
    let u := next a t.node
    ⟨u.value, u.node, t.events ++ u.events⟩

def map (f : α → β) (t : Traced α) : Traced β := ⟨f t.value, t.node, t.events⟩

/-- The events that come before. -/
def after (events : List Event) (t : Traced α) : Traced α := { t with events := events ++ t.events }

end Traced

end BlobSigner
