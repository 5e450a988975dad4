import BlobSigner.Integer.Radix
import BlobSigner.Integer.Binary
import BlobSigner.Integer.Euclid
/-!
# Residues

The integers modulo `m`, each held as its least non-negative representative, so that equal
residues are equal values.
-/
namespace BlobSigner

/-- There are residues only modulo a number above zero. -/
class Modulus (m : Nat) : Prop where
  pos : 0 < m

structure Residue (m : Nat) where
  val : Nat
  val_lt : val < m
deriving DecidableEq

namespace Residue

variable {m : Nat} [Modulus m]

@[ext] theorem ext {m : Nat} {a b : Residue m} (h : a.val = b.val) : a = b := by
  cases a; cases b; simp_all

/-! ## Reduction -/

def ofNat (n : Nat) : Residue m := ⟨n % m, Nat.mod_lt _ Modulus.pos⟩

/-- `NormalizeToQ` and `NormalizeToR`: division rounds towards zero, so the remainder of a negative
number is not above zero, and below zero it is brought up by one modulus. -/
def normalize (m : Nat) (v : Int) : Int :=
  let r := v.tmod m
  if r < 0 then r + m else r

theorem normalize_bounds {m : Nat} (hm : 0 < m) (v : Int) :
    0 ≤ normalize m v ∧ normalize m v < m := by
  have hpos : (0 : Int) < m := by omega
  have hlt := Int.tmod_lt_of_pos v hpos
  have hgt := Int.lt_tmod_of_pos v hpos
  unfold normalize
  dsimp only
  split <;> omega

/-- Between two residues there is nothing to divide. -/
theorem normalize_of_bounds {m : Nat} {v : Int} (hlow : -(m : Int) < v) (hhigh : v < m) :
    normalize m v = if v < 0 then v + m else v := by
  have htmod : v.tmod m = v := by
    by_cases h : v < 0
    · have hneg : (-v).tmod m = -v := Int.tmod_eq_of_lt (by omega) (by omega)
      rw [Int.neg_tmod] at hneg
      omega
    · exact Int.tmod_eq_of_lt (by omega) hhigh
  simp only [normalize, htmod]

/-- `FieldElement` and `Scalar` of an integer. -/
def ofInt (v : Int) : Residue m :=
  ⟨(normalize m v).toNat, by
    have := normalize_bounds (m := m) Modulus.pos v
    omega⟩

instance (n : Nat) : OfNat (Residue m) n := ⟨ofNat n⟩

/-! ## Ring operations -/

def add (a b : Residue m) : Residue m := ofNat (a.val + b.val)

def sub (a b : Residue m) : Residue m := ofInt (a.val - b.val)

def mul (a b : Residue m) : Residue m := ofNat (a.val * b.val)

def neg (a : Residue m) : Residue m := ofInt (-a.val)

instance : Add (Residue m) := ⟨add⟩
instance : Sub (Residue m) := ⟨sub⟩
instance : Mul (Residue m) := ⟨mul⟩
instance : Neg (Residue m) := ⟨neg⟩

theorem sub_val (a b : Residue m) :
    (a - b).val = if a.val < b.val then a.val + m - b.val else a.val - b.val := by
  have ha := a.val_lt
  have hb := b.val_lt
  show (normalize m (a.val - b.val)).toNat = _
  rw [normalize_of_bounds (by omega) (by omega)]
  split <;> split <;> omega

theorem neg_val (a : Residue m) : (-a).val = if a.val = 0 then 0 else m - a.val := by
  have ha := a.val_lt
  show (normalize m (-a.val)).toNat = _
  rw [normalize_of_bounds (by omega) (by omega)]
  split <;> split <;> omega

/-- `Square`. -/
def square (a : Residue m) : Residue m := a * a

def cube (a : Residue m) : Residue m := a.square * a

/-! ## Powers -/

/-- Square for each binary digit of the exponent, and multiply where it is one. -/
def pow (a : Residue m) (e : Nat) : Residue m :=
  (binary e).foldl (fun s d => if d then s.square * a else s.square) 1

/-- `Pow`: the power for an exponent that may be negative. -/
def zpow (a : Residue m) (e : Int) : Except ArithmeticError (Residue m) :=
  if e < 0 then .error .negativeExponent else .ok (a.pow e.toNat)

/-! ## Inverses -/

/-- `Inverse`. Exactly the residues prime to the modulus have one; zero never counts as such. -/
def inverse (a : Residue m) : Except ArithmeticError (Residue m) :=
  if a.val = 0 then .error .noInverse
  else
    let (g, t) := bezout m a.val
    if g = 1 then .ok (ofInt t) else .error .noInverse

/-! ## Byte forms -/

/-- `ToBigEndianBytes` and `ToCanonicalBytes`. -/
def toBigEndian {m : Nat} (a : Residue m) : Except ArithmeticError Bytes32 :=
  Radix.bigEndian32 a.val

/-- `ToLittleEndianBytes`. -/
def toLittleEndian {m : Nat} (a : Residue m) : Except ArithmeticError Bytes32 :=
  Radix.littleEndian32 a.val

/-- A number is canonical when it is below the modulus. -/
def ofCanonical? (n : Nat) : Option (Residue m) := if n < m then some (ofNat n) else none

end Residue

end BlobSigner
