import BlobSigner.Bn254.Point
/-!
# From digests to points

A digest, read as a number, is raised by one until `x³ + 3` is a square; the point has that `x` and
the root that is itself a square. The climb wraps past `q - 1` to zero and ends at the latest at
`x = 1`, where `1 + 3 = 2²`.
-/
namespace BlobSigner

/-! ## Climbing through the residues -/

namespace Residue

variable {m : Nat} [Modulus m]

/-- Steps of one that lead from `x` to `1`. -/
def stepsToOne (x : Residue m) : Nat := ((1 : Residue m) - x).val

theorem stepsToOne_add_one_lt {x : Residue m} (h : x ≠ 1) :
    (x + 1).stepsToOne < x.stepsToOne := by
  have hx := x.val_lt
  have hm : 1 < m := by
    apply Nat.lt_of_not_le
    intro hm
    have := (1 : Residue m).val_lt
    exact h (ext (by omega))
  have h1 : (1 : Residue m).val = 1 := Nat.mod_eq_of_lt hm
  have hne : x.val ≠ 1 := fun e => h (ext (e.trans h1.symm))
  have hadd : (x + 1).val = (x.val + 1) % m := by
    show (x.val + (1 : Residue m).val) % m = _
    rw [h1]
  have hs : ∀ y : Residue m, y.stepsToOne = if 1 < y.val then 1 + m - y.val else 1 - y.val :=
    fun y => by rw [stepsToOne, sub_val, h1]
  rw [hs, hs, hadd]
  by_cases hlast : x.val + 1 = m
  · -- from the last residue the climb goes on at zero
    rw [hlast, Nat.mod_self]
    split <;> split <;> omega
  · rw [Nat.mod_eq_of_lt (show x.val + 1 < m by omega)]
    split <;> split <;> omega

/-- The first residue from `x` upwards at which `f` has a value, and that value. -/
def firstFrom {α : Type} (f : Residue m → Option α) (one : (f 1).isSome) (x : Residue m) :
    Residue m × α :=
  match h : f x with
  | some a => (x, a)
  | none => firstFrom f one (x + 1)
termination_by x.stepsToOne
decreasing_by
  refine stepsToOne_add_one_lt fun e => ?_
  subst e
  rw [h] at one
  cases one

end Residue

/-! ## Square roots -/

/-- `SqrtExponent`: as `q = 3` modulo 4, this power of a square is one of its roots. -/
def rootExponent : Nat := (q + 1) / 4

/-- The root of a square that is itself a square. -/
def Fq.sqrt? (a : Fq) : Option Fq :=
  let y := a.pow rootExponent
  if y.square = a then some y else none

namespace G1

/-- The `y` that goes with `x` on the curve. -/
def ordinate? (x : Fq) : Option Fq := Fq.sqrt? (x.cube + 3)

theorem isSome_ordinate?_one : (ordinate? 1).isSome = true := by decide +kernel

/-- The first point at or above `x`. -/
def climb (x : Fq) : G1 :=
  let (x, y) := Residue.firstFrom ordinate? isSome_ordinate?_one x
  affine x y

/-- `MapToG1`: the point that stands for a digest. -/
def ofDigest (d : Bytes32) : G1 := climb (Fq.ofBigEndian d.toList)

end G1

end BlobSigner
