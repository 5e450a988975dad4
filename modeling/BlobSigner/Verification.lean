import BlobSigner.Node
/-!
# Checks of a request against the node

A request is decoded, its blob must await signatures, its quorum must exist in its epoch, and its
slices must be those assigned to the quorum, each with a good proof. The first check that fails is
the cause of the rejection.
-/
namespace BlobSigner

/-! ## Decoding -/

/-- A request with all its parts decoded. -/
structure Decoded where
  key : BlobKey
  commitment : G1
  slices : List Slice
deriving DecidableEq

namespace Request

def decodeSlices (limit : UInt64) : Nat → List Bytes → Except Rejection (List Slice)
  | _, [] => .ok []
  | i, b :: r =>
    match Slice.decode limit b with
    | .error e => .error (.slice i e)
    | .ok s => (decodeSlices limit (i + 1) r).map (s :: ·)

def decodeCommitment (b : Bytes) : Except Rejection G1 :=
  match Commitment.decode b with
  | .ok P => .ok P
  | .error (.arithmetic e) => .error (.arithmetic e)
  | .error e => .error (.commitment e)

/-- `Decode`. -/
def decode (limit : UInt64) (r : Request) : Except Rejection Decoded :=
  match StorageRoot.ofBytes r.root with
  | .error e => .error (.root e)
  | .ok root =>
    match decodeCommitment r.commitment with
    | .error e => .error e
    | .ok commitment =>
      (decodeSlices limit 0 r.slices).map fun slices =>
        ⟨⟨r.epoch, r.quorum, root⟩, commitment, slices⟩

end Request

namespace Node

/-! ## The blob's status -/

/-- Only a blob that is uploaded, and not yet verified, may be signed. -/
def judgeStatus : Except String (Option BlobStatus) → Except Rejection Unit
  | .error why => .error (.statusUnreadable why)
  | .ok none => .error .blobUnknown
  | .ok (some s) =>
    if s = .uploaded then .ok ()
    else if s = .verified then .error .blobVerified
    else .error .statusCorrupt

/-- `Check` of `BlobStatusGate`. -/
def gate (k : BlobKey) (n : Node) : Traced (Except Rejection Unit) :=
  let read := n.store.readStatus k
  ⟨judgeStatus read, n, [.readStatus k read]⟩

/-! ## Quorum counts -/

/-- `Put`: counts that come from elsewhere can be put into the cache. -/
def putCount (n : Node) (epoch count : UInt64) : Node :=
  { n with counts := n.counts.insert epoch count }

/-- `FetchQuorumCountIfMissing`: a count in the cache is used as it is; else there is one look-up, and
a good answer goes into the cache. -/
def fetchBy (lookUp : Node → Traced (Except LookupError UInt64)) (epoch : UInt64) (n : Node) :
    Traced (Except LookupError UInt64) :=
  match n.counts.get? epoch with
  | some count => .of (.ok count) n
  | none =>
    let t := (lookUp { n with lookups := n.lookups + 1 }).after [.lookup epoch]
    match t.value with
    | .error _ => t
    | .ok count => { t with node := t.node.putCount epoch count }

/-- A look-up runs to its answer; batches that it wants signed go to `nested`. -/
def consult (nested : Batch → Node → Traced Reply) :
    Lookup → Node → Traced (Except LookupError UInt64)
  | .answer result, n => .of result n
  | .call b next, n =>
    let t := nested b n
    (consult nested (next t.value) t.node).after
      (t.events ++ [.answered t.value t.node.admission.ongoing])
  | .fetch epoch inner next, n =>
    let t := fetchBy (consult nested inner) epoch n
    (consult nested (next t.value) t.node).after t.events

/-- The count of an epoch, with a look-up in these surroundings if need be. -/
def fetchCount (env : Surroundings) (nested : Batch → Node → Traced Reply) (epoch : UInt64)
    (n : Node) : Traced (Except LookupError UInt64) :=
  fetchBy (consult nested (env.lookup n.lookups epoch)) epoch n

/-! ## The quorum's slices -/

/-- `VerifyAssignedSlices` in these surroundings. -/
def checkSlices (env : Surroundings) (pool : Pool) (root : StorageRoot) (commitment : G1)
    (assigned : List UInt64) (slices : List Slice) (n : Node) : Traced (Except Rejection Unit) :=
  let (verdict, calls) :=
    SliceCheck.verify pool env.check (env.schedule n.rounds) root commitment assigned slices
  ⟨verdict, { n with rounds := n.rounds + 1 }, calls.map .checkSlice⟩

/-- Quorums of an epoch are numbered from zero. -/
def checkQuorum (k : QuorumKey) (count : UInt64) (n : Node) : Traced (Except Rejection Unit) :=
  .of (if k.quorum < count then .ok () else .error (.quorumOutOfBound k.quorum k.epoch count)) n

def judgeAssignment : Except String (Option (List UInt64)) → Except Rejection (List UInt64)
  | .error why => .error (.assignmentUnreadable why)
  | .ok none => .error .quorumUnassigned
  | .ok (some assigned) => .ok assigned

def readAssignment (k : QuorumKey) (n : Node) : Traced (Except Rejection (List UInt64)) :=
  let read := n.store.readAssignment k
  ⟨judgeAssignment read, n, [.readAssignment k read]⟩

/-- `Verify` of `SliceAssignmentVerifier`: the quorum exists, and the slices are the ones it was
assigned. -/
def verify (env : Surroundings) (nested : Batch → Node → Traced Reply) (pool : Pool) (d : Decoded)
    (n : Node) : Traced (Except Rejection Unit) :=
  ((fetchCount env nested d.key.epoch n).map
      fun v => v.mapError fun e => .countUnavailable d.key.epoch e.message).andThen fun count n =>
    (checkQuorum d.key.quorumKey count n).andThen fun _ n =>
      (readAssignment d.key.quorumKey n).andThen fun assigned n =>
        checkSlices env pool d.key.root d.commitment assigned d.slices n

end Node

end BlobSigner
