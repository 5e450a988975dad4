import BlobSigner.Residue
/-!
# The two prime fields of BN254

Coordinates live modulo `q`, scalars modulo the order `r` of the curve. A byte form is accepted
only if it is the canonical one: thirty-two bytes of a number below the modulus, little-endian for
coordinates and big-endian for scalars.
-/
namespace BlobSigner

/-- `ModulusQ`: the modulus of the coordinates. -/
def q : Nat := 21888242871839275222246405745257275088696311157297823662689037894645226208583

/-- `ModulusR`: the number of points of the curve, and the modulus of the scalars. -/
def r : Nat := 21888242871839275222246405745257275088548364400416034343698204186575808495617

instance : Modulus q := ⟨by decide⟩
instance : Modulus r := ⟨by decide⟩

/-- `FieldElement`: a coordinate of a point. -/
abbrev Fq := Residue q

/-- `Scalar`: a multiplier of points. -/
abbrev Fr := Residue r

/-! ## Coordinates -/

namespace Fq

inductive FormError where
  | length
  | notCanonical
deriving DecidableEq, Repr

def FormError.message : FormError → String
  | .length => "Field element must be exactly 32 bytes"
  | .notCanonical => "Field element is not canonical (>= q)"

/-- `FromBigEndianModQ`: digits of any number are reduced. -/
def ofBigEndian (b : Bytes) : Fq := .ofNat (Radix.ofBigEndian b)

/-- `FromCanonicalLittleEndian`. -/
def ofLittleEndian (b : Bytes) : Except FormError Fq :=
  if b.length ≠ 32 then .error .length
  else match Residue.ofCanonical? (Radix.ofLittleEndian b) with
    | some x => .ok x
    | none => .error .notCanonical

/-- `IsLexicographicallyLargest`: of two opposite coordinates, the larger one as a number. -/
def IsLarger (y : Fq) : Prop := (-y).val < y.val

instance (y : Fq) : Decidable y.IsLarger := inferInstanceAs (Decidable (_ < _))

end Fq

/-! ## Scalars -/

namespace Fr

inductive FormError where
  | empty
  | length
  | outOfRange
deriving DecidableEq, Repr

def FormError.message : FormError → String
  | .empty => "Big-endian input must not be empty"
  | .length => "Canonical scalar must be exactly 32 bytes"
  | .outOfRange => "Canonical scalar is out of range"

/-- `FromBigEndianModR`: digits of any number but zero are reduced. -/
def ofDigits (b : Bytes) : Except FormError Fr :=
  if b.isEmpty then .error .empty else .ok (.ofNat (Radix.ofBigEndian b))

/-- `FromCanonicalBytes`. -/
def ofBigEndian (b : Bytes) : Except FormError Fr :=
  if b.length ≠ 32 then .error .length
  else match Residue.ofCanonical? (Radix.ofBigEndian b) with
    | some k => .ok k
    | none => .error .outOfRange

end Fr

end BlobSigner
