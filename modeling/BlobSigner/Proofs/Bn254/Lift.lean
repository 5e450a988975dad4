import BlobSigner.Bn254.Lift
import BlobSigner.Proofs.Bn254.Order
import Mathlib.NumberTheory.LegendreSymbol.Basic
/-!
# Digests on the curve

As `q = 3` modulo 4, the power that `Fq.sqrt?` takes of a square is one of its two roots, and the
only one that is a square itself. So the climb from a digest passes over exactly those `x` that have
no point, and ends, at the latest where `x = 1`, with the root that is a square
(`ofDigest_first_square`).
-/
namespace BlobSigner

/-! ## Squares -/

namespace Residue

variable {m : Nat} [Modulus m]

theorem isSquare_toZMod {a : Residue m} : IsSquare a.toZMod ↔ IsSquare a := by
  constructor
  · rintro ⟨z, hz⟩
    exact ⟨.ofZMod z, toZMod_inj.1 (by rw [toZMod_mul, toZMod_ofZMod, hz])⟩
  · rintro ⟨z, rfl⟩
    exact ⟨z.toZMod, toZMod_mul z z⟩

theorem isSquare_pow {a : Residue m} (h : IsSquare a) (e : Nat) : IsSquare (a.pow e) := by
  rw [← isSquare_toZMod, toZMod_pow]
  exact (isSquare_toZMod.2 h).pow e

end Residue

namespace Fq

/-- The power of a square that is taken is a root of it. -/
theorem square_pow_rootExponent_iff {a : Fq} : (a.pow rootExponent).square = a ↔ IsSquare a := by
  constructor
  · intro h
    exact ⟨_, h.symm⟩
  · rintro ⟨z, rfl⟩
    have hexp : 2 * (rootExponent * 2) = q + 1 := by decide
    rw [← Residue.toZMod_inj, Residue.toZMod_square, Residue.toZMod_pow, Residue.toZMod_mul, ← sq,
      ← pow_mul, ← pow_mul, hexp, pow_succ, ZMod.pow_card, sq]

theorem not_isSquare_neg_one : ¬ IsSquare (-1 : ZMod q) := by
  rw [ZMod.exists_sq_eq_neg_one_iff]
  decide

/-- Of two opposite roots only one is a square. -/
theorem not_isSquare_neg {y : Fq} (hy : y ≠ 0) (h : IsSquare y) : ¬ IsSquare (-y) := by
  intro hneg
  rw [← Residue.isSquare_toZMod] at h hneg
  have hne : y.toZMod ≠ 0 := Residue.toZMod_ne_zero hy
  refine not_isSquare_neg_one ?_
  have hdiv : -1 = (-y).toZMod / y.toZMod := by rw [Residue.toZMod_neg, neg_div, div_self hne]
  rw [hdiv]
  exact hneg.div h

theorem square_eq_square_iff {y z : Fq} : z.square = y.square ↔ z = y ∨ z = -y := by
  simp only [← Residue.toZMod_inj, Residue.toZMod_square, Residue.toZMod_neg,
    sq_eq_sq_iff_eq_or_eq_neg]

end Fq

/-! ## The climb -/

namespace Residue

variable {m : Nat} [Modulus m] {α : Type} {f : Residue m → Option α} {one : (f 1).isSome}

theorem firstFrom_of_some {x : Residue m} {a : α} (h : f x = some a) :
    firstFrom f one x = (x, a) := by
  rw [firstFrom]
  split
  · simp_all
  · simp_all

theorem firstFrom_of_none {x : Residue m} (h : f x = none) :
    firstFrom f one x = firstFrom f one (x + 1) := by
  rw [firstFrom]
  split
  · simp_all
  · rfl

theorem add_ofNat_zero (x : Residue m) : x + ofNat 0 = x := by
  simp [← toZMod_inj]

theorem add_one_add_ofNat (x : Residue m) (k : Nat) : x + 1 + ofNat k = x + ofNat (k + 1) := by
  simp only [← toZMod_inj, toZMod_add, toZMod_ofNat, toZMod_one]
  push_cast
  ring

/-- The climb passes over what has no value, and goes no farther up than `1`. -/
theorem exists_firstFrom (f : Residue m → Option α) (one : (f 1).isSome) (x : Residue m) :
    ∃ k ≤ x.stepsToOne, ∃ a, firstFrom f one x = (x + ofNat k, a) ∧ f (x + ofNat k) = some a ∧
      ∀ j < k, f (x + ofNat j) = none := by
  induction x using firstFrom.induct f one with
  | case1 x a h =>
    refine ⟨0, Nat.zero_le _, a, ?_, ?_, nofun⟩
    · rw [firstFrom_of_some h, add_ofNat_zero]
    · rw [add_ofNat_zero, h]
  | case2 x h ih =>
    obtain ⟨k, hk, a, hfirst, ha, hnone⟩ := ih
    have hx : x ≠ 1 := by
      rintro rfl
      rw [h] at one
      cases one
    have hsteps := stepsToOne_add_one_lt hx
    rw [add_one_add_ofNat] at hfirst ha
    refine ⟨k + 1, by omega, a, by rw [firstFrom_of_none h, hfirst], ha, fun j hj => ?_⟩
    cases j with
    | zero => rw [add_ofNat_zero, h]
    | succ j =>
      rw [← add_one_add_ofNat]
      exact hnone j (by omega)

end Residue

theorem Fq.sqrt?_eq_some_iff {a y : Fq} : a.sqrt? = some y ↔ IsSquare a ∧ y = a.pow rootExponent := by
  rw [sqrt?, ← square_pow_rootExponent_iff]
  simp only [Option.ite_none_right_eq_some, Option.some.injEq, eq_comm (a := y)]

theorem Fq.sqrt?_eq_none_iff {a : Fq} : a.sqrt? = none ↔ ¬ IsSquare a := by
  rw [sqrt?, ← square_pow_rootExponent_iff]
  simp

/-! ## Digests -/

namespace G1

theorem onCurve_of_ordinate? {x y : Fq} (h : ordinate? x = some y) : (affine x y).OnCurve := by
  obtain ⟨hsquare, rfl⟩ := Fq.sqrt?_eq_some_iff.1 h
  exact Fq.square_pow_rootExponent_iff.2 hsquare

/-- The climb ends on the curve. -/
theorem onCurve_ofDigest (d : Bytes32) : (ofDigest d).OnCurve ∧ ofDigest d ≠ infinity := by
  obtain ⟨k, -, y, hfirst, hroot, -⟩ :=
    Residue.exists_firstFrom ordinate? isSome_ordinate?_one (Fq.ofBigEndian d.toList)
  rw [ofDigest, climb, hfirst]
  refine ⟨onCurve_of_ordinate? hroot, ?_⟩
  intro h
  cases h

/-- **A digest goes to the first point at or above it.** The climb from the number `v` that the
digest's bytes spell ends, before it comes round, at the least `k` for which the equation of the
curve has a solution at `x = v + k`. Of the two solutions there it takes the one that is a square,
which is the power of `x³ + 3` that it tries; and this power solves the equation exactly if there is
a solution. -/
theorem ofDigest_first_square (d : Bytes32) :
    let v := Radix.ofBigEndian d.toList
    let rhs : Nat → Fq := fun k => (Residue.ofNat (v + k) : Fq).cube + 3
    ∃ k < q, ∃ y : Fq, ofDigest d = affine (.ofNat (v + k)) y ∧ (ofDigest d).OnCurve ∧
      IsSquare (rhs k) ∧ (∀ j < k, ¬ IsSquare (rhs j)) ∧
      y = (rhs k).pow rootExponent ∧ (∀ z : Fq, z.square = rhs k ↔ z = y ∨ z = -y) ∧
      IsSquare y ∧ ¬ IsSquare (-y) ∧
      ∀ a : Fq, (a.pow rootExponent).square = a ↔ IsSquare a := by
  intro v rhs
  have hx : ∀ j, Fq.ofBigEndian d.toList + .ofNat j = .ofNat (v + j) := fun j => by
    simp [← Residue.toZMod_inj, Fq.ofBigEndian, v]
  have hrhs : ∀ j, ordinate? (Fq.ofBigEndian d.toList + .ofNat j) = (rhs j).sqrt? := fun j => by
    rw [ordinate?, hx]
  obtain ⟨k, hk, y, hfirst, hroot, hnone⟩ :=
    Residue.exists_firstFrom ordinate? isSome_ordinate?_one (Fq.ofBigEndian d.toList)
  have hdigest : ofDigest d = affine (.ofNat (v + k)) y := by
    rw [ofDigest, climb, hfirst, ← hx]
  obtain ⟨hsolvable, hpow⟩ := Fq.sqrt?_eq_some_iff.1 ((hrhs k).symm.trans hroot)
  have hsquare : y.square = rhs k := by
    rw [hpow]
    exact Fq.square_pow_rootExponent_iff.2 hsolvable
  have hcurve : (affine (.ofNat (v + k)) y).OnCurve := hsquare
  have hyy : IsSquare y := hpow ▸ Residue.isSquare_pow hsolvable rootExponent
  refine ⟨k, hk.trans_lt (Residue.val_lt _), y, hdigest, hdigest ▸ hcurve, hsolvable, ?_, hpow, ?_,
    hyy, Fq.not_isSquare_neg (y_ne_zero (onCurve_affine_iff.1 hcurve)) hyy,
    fun a => Fq.square_pow_rootExponent_iff⟩
  · intro j hj
    exact Fq.sqrt?_eq_none_iff.1 ((hrhs j).symm.trans (hnone j hj))
  · intro z
    rw [← hsquare]
    exact Fq.square_eq_square_iff

end G1

end BlobSigner
