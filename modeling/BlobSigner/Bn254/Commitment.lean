import BlobSigner.Bn254.Point
import BlobSigner.Log
/-!
# Commitments and roots from the wire

An erasure commitment is a point of the curve in two canonical little-endian coordinates, with no
flags, so it is never infinity and each one has a single form. The checks run in order: form, curve
equation, subgroup.
-/
namespace BlobSigner

/-! ## Storage roots -/

/-- A root of the wrong length, which is given. -/
structure RootError where
  length : Nat
deriving DecidableEq, Repr

def RootError.message (e : RootError) : String :=
  s!"storage root must be exactly 32 bytes, got {e.length}"

/-- `DecodeStorageRoot`. -/
def StorageRoot.ofBytes (b : Bytes) : Except RootError StorageRoot :=
  match Bytes32.ofList? b with
  | some root => .ok root
  | none => .error ⟨b.length⟩

namespace Commitment

/-- `CommitmentCheck`: what a commitment is checked for. -/
inductive Check where
  | malformed
  | notOnCurve
  | notInSubgroup
deriving DecidableEq, Repr

def Check.name : Check → String
  | .malformed => "malformed"
  | .notOnCurve => "not on curve"
  | .notInSubgroup => "not in subgroup"

/-- The checks are numbered from one. -/
def Check.ofCode? : Int → Option Check
  | 1 => some .malformed
  | 2 => some .notOnCurve
  | 3 => some .notInSubgroup
  | _ => none

/-- `CommitmentCheckName`. -/
def Check.nameOfCode (n : Int) : String := (ofCode? n).elim "unknown" name

/-- `InvalidCommitmentError`, or a failure of the arithmetic. -/
inductive Error where
  | length (n : Nat)
  | coordinate (e : Fq.FormError)
  | notOnCurve
  | notInSubgroup
  /-- The subgroup check itself failed. -/
  | arithmetic (e : ArithmeticError)
deriving DecidableEq, Repr

/-- The check that refused the commitment, unless the arithmetic failed. -/
def Error.check? : Error → Option Check
  | .length _ => some .malformed
  | .coordinate _ => some .malformed
  | .notOnCurve => some .notOnCurve
  | .notInSubgroup => some .notInSubgroup
  | .arithmetic _ => none

def Error.message : Error → String
  | .length n => s!"failed to deserialize erasure commitment: expected 64 bytes, got {n}"
  | .coordinate e => "failed to deserialize erasure commitment: " ++ e.message
  | .notOnCurve => "commitment is not on curve"
  | .notInSubgroup => "commitment is not in group"
  | .arithmetic e => e.message

/-- A commitment that fails a check leaves a warning in the codec's log. -/
def Error.warnings (e : Error) : List LogRecord :=
  match e.check? with
  | some c => [⟨.codec, .warn, s!"rejecting erasure commitment ({c.name}): " ++ e.message⟩]
  | none => []

/-- `DecodeCommitment`. -/
def decode (b : Bytes) : Except Error G1 :=
  if b.length ≠ 64 then .error (.length b.length)
  else match Fq.ofLittleEndian (b.take 32), Fq.ofLittleEndian (b.drop 32) with
    | .error e, _ => .error (.coordinate e)
    | _, .error e => .error (.coordinate e)
    | .ok x, .ok y =>
      let P := G1.affine x y
      if P.OnCurve then
        match P.inSubgroup? with
        | .ok true => .ok P
        | .ok false => .error .notInSubgroup
        | .error e => .error (.arithmetic e)
      else .error .notOnCurve

end Commitment

end BlobSigner
