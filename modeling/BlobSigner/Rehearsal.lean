import BlobSigner.Session
/-!
# Rehearsals

Surroundings that follow a script, for trying a node without a chain and without proofs: a slice
says in its payload what its proof check shall find, and the chain is a table of quorum counts that
can be cut off, and that can have a batch signed whenever an epoch is looked up.
-/
namespace BlobSigner.Rehearsal

/-! ## Proofs that say what they are -/

/-- The lowest byte of the commitment's `x`; infinity has none, which counts as zero. -/
def commitmentByte : G1 → Nat
  | .infinity => 0
  | .affine x _ => x.val % 256

/-- The characters that the bytes spell in UTF-8; a byte that begins none reads as U+FFFD. -/
def characters : Bytes → List Char
  | [] => []
  | b :: rest =>
    match (ByteArray.mk (b :: rest.take 3).toArray).utf8DecodeChar? 0 with
    | some c => c :: characters (rest.drop (c.utf8Size - 1))
    | none => '\ufffd' :: characters rest
termination_by b => b.length
decreasing_by
  · simp only [List.length_drop, List.length_cons]
    omega
  · simp

/-- The first byte names the rule, and the second one, zero if there is none, is what two of the
rules compare. -/
def check : SliceCheck := fun slice commitment root =>
  match slice.payload with
  | [] => .refused "empty payload"
  | rule :: rest =>
    let second := rest.headD 0
    if rule = 0xaa then .accepted
    else if rule = 0x00 then .refused ""
    else if rule = 0xee then .crashed (String.ofList (characters rest))
    else if rule = 0xa1 then
      if some second = root.toList.head? then .accepted else .refused "root mismatch"
    else if rule = 0xa2 then
      if second.toNat = commitmentByte commitment then .accepted
      else .refused "commitment mismatch"
    else .refused "bad proof"

/-! ## A chain made of a table -/

/-- A batch that a look-up has signed. -/
structure Errand where
  batch : Batch
  /-- Without a place for its reply there is no call, and the look-up ends. -/
  hasPlace : Bool
deriving DecidableEq

structure Chain where
  counts : Table UInt64 UInt64
  down : Bool
  /-- What to have signed when an epoch is looked up. -/
  onFetch : Table UInt64 Errand

namespace Chain

def empty : Chain := ⟨∅, false, ∅⟩

/-- A chain that is cut off does not answer, whatever its table holds. -/
def result (c : Chain) (epoch : UInt64) : Except LookupError UInt64 :=
  if c.down then .error (.chain "rpc timeout")
  else match c.counts.get? epoch with
    | some count => .ok count
    | none => .error (.chain s!"epoch {epoch.toNat} not synced")

/-- The errand of the epoch, if there is one, comes before the answer. -/
def lookup (c : Chain) (epoch : UInt64) : Lookup :=
  match c.onFetch.get? epoch with
  | some e =>
    if e.hasPlace then .call e.batch fun _ => .answer (c.result epoch)
    else .answer (.error .noPlace)
  | none => .answer (c.result epoch)

/-- Tasks run one after the other. -/
def surroundings (c : Chain) : Surroundings := ⟨fun _ => c.lookup, check, fun _ => []⟩

end Chain

/-! ## Steps -/

inductive Step where
  | session (x : BlobSigner.Step)
  | chainSet (epoch count : UInt64)
  | chainDown (down : Bool)
  | onFetch (epoch : UInt64) (errand : Option Errand)
deriving DecidableEq

/-- The chain after a step. -/
def Chain.after (c : Chain) : Step → Chain
  | .session _ => c
  | .chainSet epoch count => { c with counts := c.counts.insert epoch count }
  | .chainDown down => { c with down := down }
  | .onFetch epoch (some e) => { c with onFetch := c.onFetch.insert epoch e }
  | .onFetch epoch none => { c with onFetch := c.onFetch.erase epoch }

/-- Steps that only set the chain are done at once. -/
def perform (s : Session) (c : Chain) : Step → Session × Answer × List Event
  | .session x => s.step c.surroundings x
  | _ => (s, .done, [])

/-- The answers of all steps, each with its events. -/
def run (s : Session) (c : Chain) : List Step → List (Answer × List Event)
  | [] => []
  | x :: rest =>
    let (s, answer, events) := perform s c x
    (answer, events) :: run s (c.after x) rest

/-! ## Tasks of a pool -/

/-- Squares, but the positions in the list fail. -/
def squareUnless (failing : List Nat) (i : Nat) : Except String UInt64 :=
  if i ∈ failing then .error s!"task {i} failed" else .ok (UInt64.ofNat i * UInt64.ofNat i)

end BlobSigner.Rehearsal
