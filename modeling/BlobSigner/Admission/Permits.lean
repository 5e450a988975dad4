import BlobSigner.Admission
import BlobSigner.Table
/-!
# Permits

Each call that is admitted holds a permit and gives it back once. Permits are kept under names and
can be moved from one name to another; a name that a permit was moved from holds a spent one, which
gives nothing back. A new permit comes into being before the one it replaces is given back.
-/
namespace BlobSigner

/-- `AdmissionPermit`: a permit as a name holds it, numbered in the order of admission. -/
inductive Permit where
  | held (serial : Nat)
  | spent
deriving DecidableEq, Repr

/-- A permit given back, and how many calls were in progress until then. -/
structure Release where
  serial : Nat
  ongoing : Nat
deriving DecidableEq, Repr

structure Permits where
  admission : Admission
  names : Table String Permit
  /-- Calls admitted so far. -/
  admitted : Nat

namespace Permits

def ofAdmission (a : Admission) : Permits := ⟨a, ∅, 0⟩

inductive Step where
  | enter (name : String)
  | drop (name : String)
  | move (name target : String)
deriving DecidableEq, Repr

/-- What a name held is given back. -/
def release (a : Admission) : Option Permit → Admission × List Release
  | some (.held serial) => (a.leave, [⟨serial, a.ongoing⟩])
  | some .spent => (a, [])
  | none => (a, [])

/-- A name takes a permit, and what it held before is given back. -/
def place (p : Permits) (name : String) (permit : Permit) : Permits × List Release :=
  let (a, out) := release p.admission (p.names.get? name)
  ({ p with admission := a, names := p.names.insert name permit }, out)

def enter (p : Permits) (name : String) : Except SignError (Permits × List Release) :=
  match p.admission.enter? with
  | none => .error Admission.overloaded
  | some a =>
    .ok (place { p with admission := a, admitted := p.admitted + 1 } name (.held p.admitted))

def drop (p : Permits) (name : String) : Permits × List Release :=
  let (a, out) := release p.admission (p.names.get? name)
  ({ p with admission := a, names := p.names.erase name }, out)

/-- A name that holds nothing has nothing to move. -/
def move (p : Permits) (name target : String) : Permits × List Release :=
  match p.names.get? name with
  | none => (p, [])
  | some permit => place { p with names := p.names.insert name .spent } target permit

def step (p : Permits) : Step → Except SignError (Permits × List Release)
  | .enter name => p.enter name
  | .drop name => .ok (p.drop name)
  | .move name target => .ok (p.move name target)

/-- A step that is refused changes nothing. -/
def after (p : Permits) (x : Step) : Permits :=
  match p.step x with
  | .ok (p', _) => p'
  | .error _ => p

/-- The outcome of each step in turn. -/
def run (p : Permits) : List Step → List (Except SignError (Permits × List Release))
  | [] => []
  | x :: rest => p.step x :: (p.after x).run rest

end Permits

end BlobSigner
