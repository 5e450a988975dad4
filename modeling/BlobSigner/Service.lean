import BlobSigner.Signature
import BlobSigner.Verification
/-!
# Signing batches

A batch is verified and signed request by request. Only when every request has its signature are
the slices written, in the order of requests. A batch yields one signature for each request, or one
failure and none; writes that succeeded before one that failed stay.
-/
namespace BlobSigner

/-! ## Failures of a batch -/

inductive Failure where
  /-- The call was not admitted. -/
  | overloaded
  | rejected (request : Nat) (cause : Rejection)
  /-- Write `request` of `total` failed. -/
  | unwritten (request total : Nat) (why : String)
deriving DecidableEq, Repr

namespace Failure

/-- `RequestPrefix`: names the request by its position. -/
def requestLabel (i : Nat) : String := s!"request {i}: "

def error : Failure → SignError
  | overloaded => Admission.overloaded
  | rejected i cause => ⟨cause.kind, requestLabel i ++ cause.message⟩
  | unwritten i _ why => ⟨.dependencyFailure, requestLabel i ++ "put slice error: " ++ why⟩

/-- What the signer's log says; of a call that was not admitted it says nothing. -/
def records : Failure → List LogRecord
  | overloaded => []
  | rejected i (.arithmetic e) =>
    [⟨.signer, .error, requestLabel i ++ "unexpected failure: " ++ e.message⟩]
  | rejected i cause =>
    [⟨.signer, .warn, requestLabel i ++ cause.message ++ s!" ({cause.kind.name})"⟩]
  | unwritten i total why =>
    [⟨.signer, .error, requestLabel i ++ s!"put slice error after {i} of {total} writes: " ++ why⟩]

end Failure

/-- The signatures, or the failure's status alone. -/
def Reply.of : Except Failure (List Bytes) → Reply
  | .ok signatures => ⟨.ok, signatures⟩
  | .error e => ⟨e.error.status, []⟩

/-! ## The service -/

/-- `SignerService`. -/
structure Service where
  key : Fr
  payloadLimit : UInt64
  pool : Pool
  key_ne_zero : key ≠ 0

/-- `PendingWrite`: a request that has been verified and signed, and waits for its slices to be
written. -/
structure Signed where
  signature : Bytes
  key : BlobKey
  slices : List Slice
deriving DecidableEq

namespace Service

variable (svc : Service) (env : Surroundings) (nested : Batch → Node → Traced Reply)

/-! ### Verify and sign -/

/-- `Sign`. -/
def signDecoded (d : Decoded) : Except Rejection Signed :=
  match d.key.sign d.commitment svc.key with
  | .error e => .error (.arithmetic e)
  | .ok signature => .ok ⟨signature, d.key, d.slices⟩

/-- `ProcessRequest`. -/
def process (r : Request) (n : Node) : Traced (Except Rejection Signed) :=
  (Traced.of (r.decode svc.payloadLimit) n).andThen fun d n =>
    (n.gate d.key).andThen fun _ n =>
      (n.verify env nested svc.pool d).andThen fun _ n =>
        .of (svc.signDecoded d) n

/-- Requests `i`, `i + 1`, … in turn, up to the first that is rejected. -/
def processAll (i : Nat) : List Request → Node → Traced (Except Failure (List Signed))
  | [], n => .of (.ok []) n
  | r :: rs, n =>
    let t := svc.process env nested r n
    match t.value with
    | .error cause =>
      let records := cause.warnings ++ (Failure.rejected i cause).records
      ⟨.error (.rejected i cause), t.node, t.events ++ records.map .log⟩
    | .ok s =>
      ((processAll (i + 1) rs t.node).map fun v => v.map (s :: ·)).after t.events

/-! ### Write -/

/-- `CommitWrites`: writes `i`, `i + 1`, … of `total` in turn, up to the first that fails. -/
def commit (i total : Nat) : List Signed → Node → Traced (Except Failure Unit)
  | [], n => .of (.ok ()) n
  | s :: rest, n =>
    match n.store.putSlices s.key s.slices with
    | .error why =>
      let failure := Failure.unwritten i total why
      ⟨.error failure, n, .write s.key s.slices false :: failure.records.map .log⟩
    | .ok store =>
      (commit (i + 1) total rest { n with store := store }).after [.write s.key s.slices true]

/-! ### The call -/

/-- A sender that gave no name. -/
def peerName (b : Batch) : String := if b.peer = "" then "<unknown>" else b.peer

def receivedRecord (b : Batch) : LogRecord :=
  ⟨.signer, .info,
    s!"received batch sign request from {peerName b} with {b.requests.length} requests"⟩

def signedRecord (b : Batch) (signatures : List Bytes) : LogRecord :=
  ⟨.signer, .info, s!"signed batch of {signatures.length} requests from {peerName b}"⟩

/-- `BatchSignInner`: all requests are verified and signed before the first write. -/
def signAll (b : Batch) (n : Node) : Traced (Except Failure (List Bytes)) :=
  let t := (svc.processAll env nested 0 b.requests n).andThen fun signed n =>
    (commit 0 signed.length signed n).andThen fun _ n =>
      let signatures := signed.map Signed.signature
      ⟨.ok signatures, n, [.log (signedRecord b signatures)]⟩
  t.after [.log (receivedRecord b)]

/-- A call that is turned away. -/
def shed (n : Node) : Traced Reply :=
  ⟨.of (.error .overloaded), n, [.log n.admission.fullWarning]⟩

/-- An admitted call, from permit to permit. -/
def admitted (b : Batch) (n : Node) : Traced Reply :=
  let t := (svc.signAll env nested b n).map Reply.of
  let a := t.node.admission.leave
  ⟨t.value, { t.node with admission := a },
    .enter n.admission.ongoing :: t.events ++ [.leave a.ongoing]⟩

/-- Calls nest no deeper than `depth`; the limit of the admission is always reached first. -/
def batchSignWithin : Nat → Batch → Node → Traced Reply
  | 0, _, n => shed n
  | depth + 1, b, n =>
    match n.admission.enter? with
    | none => shed n
    | some a => svc.admitted env (batchSignWithin depth) b { n with admission := a }

/-- `BatchSign`. Look-ups may have further batches signed on the same node. -/
def batchSign (b : Batch) (n : Node) : Traced Reply :=
  svc.batchSignWithin env n.admission.max b n

end Service

/-! ## Starting a service -/

/-- The parts that a service works with. -/
inductive Part where
  | storage
  | chain
  | sliceCheck
deriving DecidableEq, Repr

def Part.description : Part → String
  | storage => "a storage handle"
  | chain => "a chain state"
  | sliceCheck => "a slice verifier"

inductive Service.StartError where
  | noKey
  | missing (part : Part)
  | limit (e : Admission.LimitError)
deriving DecidableEq, Repr

def Service.StartError.message : Service.StartError → String
  | noKey => "SignerService requires a non-zero signer private key"
  | missing part => "SignerService requires " ++ part.description
  | limit e => e.message

/-- How a service is to be started. -/
structure Setup where
  key : Option Fr
  maxOngoing : UInt64
  /-- Without a number, one worker for each thread of the machine. -/
  verifyThreads : Option Nat
  payloadLimit : UInt64
  /-- Parts that are not there. -/
  absent : List Part

namespace Service

def readyRecord (a : Admission) (pool : Pool) : LogRecord :=
  ⟨.signer, .info,
    s!"signer service ready: max {a.max} ongoing batch calls, {pool.workers} verify threads"⟩

/-- The constructor of `SignerService`: the key is looked at first, then the parts in order, then
the limit on calls. -/
def start (s : Setup) (hardware : Nat) : Except StartError (Service × Admission) :=
  match s.key with
  | none => .error .noKey
  | some key =>
    if h : key = 0 then .error .noKey
    else
      match [Part.storage, .chain, .sliceCheck].find? (· ∈ s.absent) with
      | some part => .error (.missing part)
      | none =>
        match Admission.ofMax s.maxOngoing with
        | .error e => .error (.limit e)
        | .ok a => .ok (⟨key, s.payloadLimit, .resolve s.verifyThreads hardware, h⟩, a)

end Service

end BlobSigner
