import BlobSigner.Bn254.Point
import BlobSigner.ErrorText
import BlobSigner.Pool
import BlobSigner.Slice
/-!
# Checking slices side by side

Each position of a request is a task: the slice must have the index assigned to the position, and
then pass its proof. The tasks share the lowest position known to have failed, and those above it
have nothing to add. The memory also keeps the proofs that were asked for, in order.
-/
namespace BlobSigner

/-- What a proof check says of a slice. -/
inductive Verdict where
  | accepted
  | refused (reason : String)
  /-- The check broke down with an exception of the standard kind, which carries a text. The task
  catches no other, and no verdict stands for one. -/
  | crashed (reason : String)
deriving DecidableEq, Repr

/-- `Verify` of a slice verifier: the check of one slice against the commitment and root of its
blob. -/
abbrev SliceCheck := Slice → G1 → StorageRoot → Verdict

/-- A proof that was asked for. -/
structure SliceCall where
  position : Nat
  slice : Slice
  commitment : G1
  root : StorageRoot
deriving DecidableEq

/-- `SliceOutcome`: what a task reports of its position. -/
inductive Finding where
  /-- The slice is good, or a lower position has failed already. -/
  | passed
  | misplaced (position : Nat) (index expected : UInt64)
  | refused (index : UInt64) (reason : String)
deriving DecidableEq, Repr

namespace SliceCheck

/-- What the tasks share. -/
structure Board where
  /-- The lowest position known to have failed; at first, one past the last. -/
  firstFailure : Nat
  /-- The proofs asked for, oldest first. -/
  calls : List SliceCall
deriving DecidableEq

/-- Between two atomic steps of a task. -/
inductive Phase where
  | fresh
  | inspecting
  /-- A failure is about to be made known. -/
  | reporting (f : Finding)
  /-- The position replaces `current` on the board, if that still stands there. -/
  | exchanging (current : Nat) (f : Finding)
  | returning (f : Finding)
deriving DecidableEq, Repr

/-- The finding on a slice, and the proof asked for if its index is the expected one. -/
def inspect (check : SliceCheck) (root : StorageRoot) (commitment : G1) (position : Nat)
    (slice : Slice) (expected : UInt64) : Finding × List SliceCall :=
  if slice.index ≠ expected then (.misplaced position slice.index expected, [])
  else
    (match check slice commitment root with
      | .accepted => .passed
      | .refused reason => .refused slice.index reason
      | .crashed reason => .refused slice.index (clip reason),
      [⟨position, slice, commitment, root⟩])

/-- The test of `RecordFailure`: only positions below the one on the board are put there. -/
def contend (position : Nat) (b : Board) (f : Finding) : Phase :=
  if position < b.firstFailure then .exchanging b.firstFailure f else .returning f

/-- A step of the task that `VerifyAssignedSlices` hands to the pool. -/
def step (check : SliceCheck) (root : StorageRoot) (commitment : G1)
    (pairs : List (Slice × UInt64)) (position : Nat) (spurious : Bool) :
    Phase → Board → Board × Progress Phase Finding
  | .fresh, b =>
    (b, .running (if b.firstFailure < position then .returning .passed else .inspecting))
  | .inspecting, b =>
    match pairs[position]? with
    | none => (b, .running (.returning .passed))
    | some (slice, expected) =>
      let (f, asked) := inspect check root commitment position slice expected
      ({ b with calls := b.calls ++ asked },
        .running (if f = .passed then .returning .passed else .reporting f))
  | .reporting f, b => (b, .running (contend position b f))
  | .exchanging current f, b =>
    if b.firstFailure = current ∧ spurious = false then
      ({ b with firstFailure := position }, .running (.returning f))
    else (b, .running (contend position b f))
  | .returning f, b => (b, .finished f)

/-- Steps to the result, if no other task comes between. -/
def rank : Phase → Board → Nat
  | .fresh, _ => 6
  | .inspecting, _ => 5
  | .reporting _, _ => 4
  | .exchanging current _, b => if b.firstFailure = current then 2 else 3
  | .returning _, _ => 1

theorem rank_le (t : Phase) (b : Board) : rank t b ≤ 6 := by
  cases t <;> simp [rank]
  split <;> omega

theorem rank_step {check : SliceCheck} {root : StorageRoot} {commitment : G1}
    {pairs : List (Slice × UInt64)} {i : Nat} {t t' : Phase} {b b' : Board}
    (h : step check root commitment pairs i false t b = (b', .running t')) :
    rank t' b' < rank t b := by
  cases t <;> simp only [step, contend] at h
  case fresh => split at h <;> cases h <;> simp [rank]
  case inspecting =>
    split at h
    · cases h; simp [rank]
    · split at h <;> cases h <;> simp [rank]
  case reporting => split at h <;> cases h <;> simp [rank]
  case exchanging =>
    split at h
    · cases h; simp_all [rank]
    · split at h <;> cases h <;> simp_all [rank]
  case returning => cases h

def program (check : SliceCheck) (root : StorageRoot) (commitment : G1)
    (pairs : List (Slice × UInt64)) : Program Board Phase Finding where
  start _ := .fresh
  step := step check root commitment pairs
  rank _ := rank
  maxRank := 6
  failed _ := false
  rank_le _ := rank_le
  rank_step _ _ _ _ _ := rank_step

/-- The finding of every position, and the proofs asked for. -/
def findings (pool : Pool) (check : SliceCheck) (schedule : Pool.Schedule) (root : StorageRoot)
    (commitment : G1) (pairs : List (Slice × UInt64)) : List Finding × List SliceCall :=
  let (found, board) :=
    pool.run (program check root commitment pairs) pairs.length schedule ⟨pairs.length, []⟩
  (found, board.calls)

end SliceCheck

end BlobSigner
