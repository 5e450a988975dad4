import BlobSigner.Proofs.Bn254.Group
import BlobSigner.Proofs.Bn254.Encoding
import Mathlib.Tactic.FieldSimp
/-!
# Weighted coordinates

A triple `(x, y, z)` with `z ≠ 0` stands for the coordinates `(x / z², y / z³)`
(`ofJacobian_of_ne_zero`), so triples that are multiples of one another, by `(m², m³, m)`, stand for
the same, and those on the curve solve `y² = x³ + 3 z⁶`. With `z = 0` all stand for infinity.
-/
namespace BlobSigner.G1

variable {x y z m : Fq}

theorem onCurve_affine_iff_toZMod : (affine x y).OnCurve ↔ y.toZMod ^ 2 = x.toZMod ^ 3 + 3 :=
  onCurve_affine_iff.trans nonsingular_iff

/-! ## What a triple stands for -/

theorem ofJacobian_of_ne_zero (hz : z ≠ 0) :
    ofJacobian x y z =
      ofAffine (.ofZMod (x.toZMod / z.toZMod ^ 2)) (.ofZMod (y.toZMod / z.toZMod ^ 3)) := by
  obtain ⟨i, hi⟩ := Fq.exists_inverse hz
  have hinverse := Residue.toZMod_of_inverse hi
  have hx : x * i.square = .ofZMod (x.toZMod / z.toZMod ^ 2) := by
    rw [← Residue.toZMod_inj, Residue.toZMod_ofZMod, Residue.toZMod_mul, Residue.toZMod_square,
      hinverse, inv_pow, div_eq_mul_inv]
  have hy : y * i.cube = .ofZMod (y.toZMod / z.toZMod ^ 3) := by
    rw [← Residue.toZMod_inj, Residue.toZMod_ofZMod, Residue.toZMod_mul, Residue.toZMod_cube,
      hinverse, inv_pow, div_eq_mul_inv]
  simp only [ofJacobian, if_neg hz, hi, hx, hy]

theorem exists_ofAffine_iff : (∃ P, ofAffine x y = .ok P) ↔ (affine x y).OnCurve := by
  by_cases h : (affine x y).OnCurve <;> simp [ofAffine, h]

theorem ofAffine_eq_error_iff {e : PointError} :
    ofAffine x y = .error e ↔ e = .notOnCurve ∧ ¬ (affine x y).OnCurve := by
  by_cases h : (affine x y).OnCurve <;> simp [ofAffine, h, eq_comm]

/-! ## The equation of weighted coordinates -/

theorem onCurve_quotient_iff (hz : z ≠ 0) :
    (affine (.ofZMod (x.toZMod / z.toZMod ^ 2)) (.ofZMod (y.toZMod / z.toZMod ^ 3))).OnCurve ↔
      y.val ^ 2 ≡ x.val ^ 3 + 3 * z.val ^ 6 [MOD q] := by
  have hz' := Residue.toZMod_ne_zero hz
  rw [onCurve_affine_iff_toZMod, Residue.toZMod_ofZMod, Residue.toZMod_ofZMod,
    ← ZMod.natCast_eq_natCast_iff]
  push_cast
  change _ ↔ y.toZMod ^ 2 = x.toZMod ^ 3 + 3 * z.toZMod ^ 6
  field_simp

/-- A triple times `(m², m³, m)` stands for what it stood for. -/
theorem ofJacobian_scale (hm : m ≠ 0) (x y z : Fq) :
    ofJacobian (m.square * x) (m.cube * y) (m * z) = ofJacobian x y z := by
  have hm' := Residue.toZMod_ne_zero hm
  by_cases hz : z = 0
  · have hmz : m * z = 0 := by
      rw [← Residue.toZMod_inj, Residue.toZMod_mul, hz, Residue.toZMod_zero, mul_zero]
    rw [ofJacobian, ofJacobian, if_pos hmz, if_pos hz]
  · have hz' := Residue.toZMod_ne_zero hz
    have hmz : m * z ≠ 0 := by
      intro h0
      rw [← Residue.toZMod_inj, Residue.toZMod_mul, Residue.toZMod_zero] at h0
      exact mul_ne_zero hm' hz' h0
    have hx : (m.square * x).toZMod / (m * z).toZMod ^ 2 = x.toZMod / z.toZMod ^ 2 := by
      rw [Residue.toZMod_mul, Residue.toZMod_mul, Residue.toZMod_square]
      field_simp
    have hy : (m.cube * y).toZMod / (m * z).toZMod ^ 3 = y.toZMod / z.toZMod ^ 3 := by
      rw [Residue.toZMod_mul, Residue.toZMod_mul, Residue.toZMod_cube]
      field_simp
    rw [ofJacobian_of_ne_zero hmz, ofJacobian_of_ne_zero hz, hx, hy]

/-- Any `z` but zero can be put to a point. -/
theorem ofJacobian_affine (hz : z ≠ 0) (h : (affine x y).OnCurve) :
    ofJacobian (x * z.square) (y * z.cube) z = .ok (affine x y) := by
  have hz' := Residue.toZMod_ne_zero hz
  have hx : (x * z.square).toZMod / z.toZMod ^ 2 = x.toZMod := by
    rw [Residue.toZMod_mul, Residue.toZMod_square]
    field_simp
  have hy : (y * z.cube).toZMod / z.toZMod ^ 3 = y.toZMod := by
    rw [Residue.toZMod_mul, Residue.toZMod_cube]
    field_simp
  rw [ofJacobian_of_ne_zero hz, hx, hy, Residue.ofZMod_toZMod, Residue.ofZMod_toZMod, ofAffine,
    if_pos h]

/-- **Weighted coordinates are points up to their multiples.** With `z ≠ 0` they stand for a point
exactly if they solve the equation, and are refused for that alone; all multiples of a triple give the
same result, point or refusal; and a point is what its coordinates, weighted with any `z ≠ 0`, stand
for. With `z = 0` they stand for infinity, whatever the rest. -/
theorem jacobian_exact (x y z : Fq) :
    (z ≠ 0 →
      ((∃ P, ofJacobian x y z = .ok P) ↔ y.val ^ 2 ≡ x.val ^ 3 + 3 * z.val ^ 6 [MOD q]) ∧
      ∀ e, ofJacobian x y z = .error e ↔
        e = .notOnCurve ∧ ¬ y.val ^ 2 ≡ x.val ^ 3 + 3 * z.val ^ 6 [MOD q]) ∧
    (∀ m : Fq, m ≠ 0 → ofJacobian (m.square * x) (m.cube * y) (m * z) = ofJacobian x y z) ∧
    (z ≠ 0 → (affine x y).OnCurve → ofJacobian (x * z.square) (y * z.cube) z = .ok (affine x y)) ∧
    ofJacobian x y 0 = .ok infinity := by
  refine ⟨fun hz => ?_, fun m hm => ofJacobian_scale hm x y z, ofJacobian_affine, if_pos rfl⟩
  rw [ofJacobian_of_ne_zero hz, ← onCurve_quotient_iff hz]
  exact ⟨exists_ofAffine_iff, fun e => ofAffine_eq_error_iff⟩

/-- The generator, weighted with five; with the powers of five mixed up there is no point. -/
theorem jacobian_exact_generator :
    generator.OnCurve ∧ ofJacobian 25 250 5 = .ok generator ∧
      ofJacobian ((-1 : Fq).square * 25) ((-1 : Fq).cube * 250) (-1 * 5) = ofJacobian 25 250 5 ∧
      ofJacobian 125 50 5 = .error .notOnCurve ∧ ofJacobian 125 50 0 = .ok infinity := by
  have hcurve : (affine 1 2).OnCurve := by decide
  have hfive : (5 : Fq) ≠ 0 := by decide
  obtain ⟨-, -, hpoint, -⟩ := jacobian_exact 1 2 5
  obtain ⟨-, hscale, -, -⟩ := jacobian_exact 25 250 5
  obtain ⟨hequation, -, -, hzero⟩ := jacobian_exact 125 50 5
  exact ⟨hcurve, hpoint hfive hcurve, hscale (-1) (by decide),
    ((hequation hfive).2 _).2 ⟨rfl, by decide⟩, hzero⟩

end BlobSigner.G1
