import BlobSigner.Service
/-!
# Sessions

A session is a node, with or without a service on it, and a sequence of steps: records are set and
read, the cache is filled, single checks are made and batches are signed. What the surroundings do
may change from step to step.
-/
namespace BlobSigner

structure Session where
  /-- Workers for the checks that are made without the service. -/
  pool : Pool
  service : Option Service
  node : Node

inductive Step where
  | setStatus (key : BlobKey) (status : BlobStatus)
  | getStatus (key : BlobKey)
  | setAssignment (key : QuorumKey) (indices : List UInt64)
  | getAssignment (key : QuorumKey)
  | putSlices (key : BlobKey) (slices : List Slice)
  | getSlices (key : BlobKey)
  /-- How many blobs have slices. -/
  | countBlobs
  | setOutage (statusReads assignmentReads : Bool) (writesLeft : Option Nat)
      (message : Option String)
  | putCount (epoch count : UInt64)
  | getCount (epoch : UInt64)
  | fetchCount (epoch : UInt64)
  /-- How many look-ups have been made. -/
  | countLookups
  | gate (key : BlobKey)
  | verify (d : Decoded)
  | verifyAssigned (root : StorageRoot) (commitment : G1) (assigned : List UInt64)
      (slices : List Slice)
  /-- The reply takes the place of the signatures given here; without a place there is no call. -/
  | batch (b : Batch) (place : Option (List Bytes))
  | ongoing
deriving DecidableEq

inductive Answer where
  | done
  | status (s : Option BlobStatus)
  | assignment (indices : Option (List UInt64))
  | slices (l : Option (List Slice))
  | count (c : Option UInt64)
  | fetched (c : UInt64)
  | total (n : Nat)
  | passed
  | reply (r : Reply) (ongoing : Nat)
  | ongoing (ongoing max : Nat)
  /-- Storage or chain failed. -/
  | failed (why : String)
  | refused (e : SignError)
  /-- A reply had no place. -/
  | noPlace
deriving DecidableEq

namespace Session

/-! ## Starting -/

inductive StartError where
  | pool (e : Pool.SizeError)
  | service (e : Service.StartError)
deriving DecidableEq, Repr

def StartError.message : StartError → String
  | pool e => e.message
  | service e => e.message

/-- The session's own workers come first, then the service, if there is to be one. What is logged
on the way comes with the session. -/
def start (workers : Nat) (setup : Option Setup) (hardware : Nat) :
    Except StartError (Session × List LogRecord) :=
  match Pool.ofWorkers workers with
  | .error e => .error (.pool e)
  | .ok pool =>
    match setup with
    | none => .ok (⟨pool, none, .init .idle⟩, [])
    | some s =>
      match Service.start s hardware with
      | .error e => .error (.service e)
      | .ok (svc, a) => .ok (⟨pool, some svc, .init a⟩, [Service.readyRecord a svc.pool])

/-! ## Steps -/

/-- A look-up's batches go to the service, or nowhere. -/
def nested (s : Session) (env : Surroundings) : Batch → Node → Traced Reply :=
  match s.service with
  | some svc => svc.batchSign env
  | none => fun _ n => .of ⟨⟨.internal, "no service"⟩, []⟩ n

/-- A check that fails leaves the warnings of its cause. -/
def checked (t : Traced (Except Rejection Unit)) : Traced Answer :=
  match t.value with
  | .ok () => ⟨.passed, t.node, t.events⟩
  | .error cause => ⟨.refused cause.error, t.node, t.events ++ cause.warnings.map .log⟩

/-- A failure of storage, or the answer. -/
def read {α : Type} (answer : α → Answer) : Except String α → Answer
  | .ok a => answer a
  | .error why => .failed why

/-- A count, or why the look-up has none. -/
def fetched : Except LookupError UInt64 → Answer
  | .ok c => .fetched c
  | .error .noPlace => .noPlace
  | .error e => .failed e.message

def perform (s : Session) (env : Surroundings) : Step → Traced Answer
  | .setStatus key status =>
    .of .done { s.node with store := s.node.store.setStatus key status }
  | .getStatus key =>
    let r := s.node.store.readStatus key
    ⟨read .status r, s.node, [.readStatus key r]⟩
  | .setAssignment key indices =>
    .of .done { s.node with store := s.node.store.setAssignment key indices }
  | .getAssignment key =>
    let r := s.node.store.readAssignment key
    ⟨read .assignment r, s.node, [.readAssignment key r]⟩
  | .putSlices key slices =>
    match s.node.store.putSlices key slices with
    | .ok store => ⟨.done, { s.node with store := store }, [.write key slices true]⟩
    | .error why => ⟨.failed why, s.node, [.write key slices false]⟩
  | .getSlices key => .of (.slices (s.node.store.slices.get? key)) s.node
  | .countBlobs => .of (.total s.node.store.slices.size) s.node
  | .setOutage statusReads assignmentReads writesLeft message =>
    .of .done { s.node with
      store := s.node.store.setOutage statusReads assignmentReads writesLeft message }
  | .putCount epoch count => .of .done (s.node.putCount epoch count)
  | .getCount epoch => .of (.count (s.node.counts.get? epoch)) s.node
  | .fetchCount epoch =>
    (s.node.fetchCount env (s.nested env) epoch).map fetched
  | .countLookups => .of (.total s.node.lookups) s.node
  | .gate key => checked (s.node.gate key)
  | .verify d => checked (s.node.verify env (s.nested env) s.pool d)
  | .verifyAssigned root commitment assigned slices =>
    checked (s.node.checkSlices env s.pool root commitment assigned slices)
  | .batch _ none => .of .noPlace s.node
  | .batch b (some _) =>
    let t := s.nested env b s.node
    ⟨.reply t.value t.node.admission.ongoing, t.node, t.events⟩
  | .ongoing => .of (.ongoing s.node.admission.ongoing s.node.admission.max) s.node

def step (s : Session) (env : Surroundings) (x : Step) : Session × Answer × List Event :=
  let t := s.perform env x
  ({ s with node := t.node }, t.value, t.events)

/-- Each step in the surroundings of its time. -/
def run (s : Session) : List (Surroundings × Step) → Session × List (Answer × List Event)
  | [] => (s, [])
  | (env, x) :: rest =>
    let (s, answer, events) := s.step env x
    let (s, answers) := s.run rest
    (s, (answer, events) :: answers)

end Session

end BlobSigner
