import BlobSigner.Proofs.Bn254.Total
import Mathlib.AlgebraicGeometry.EllipticCurve.Affine.Formula
/-!
# Off the curve

The chord and tangent rules do not know the constant of the curve's equation. Every pair of
coordinates lies on exactly one of the curves `y² = x³ + c`, and the rules keep to it, also where
it is singular: `keeps_cubic`. So they lead from points on the curve to points on the curve, and a
point off the curve has no multiple on it but infinity.
-/
namespace BlobSigner.G1

/-! ## The rules on `y² = x³ + c` -/

/-- The curve with the constant `c`. Only `c = 0` makes it singular. -/
def cubic (c : ZMod q) : WeierstrassCurve.Affine (ZMod q) := ⟨0, 0, 0, 0, c⟩

theorem equation_cubic_iff {c x y : ZMod q} : (cubic c).Equation x y ↔ y ^ 2 = x ^ 3 + c := by
  rw [WeierstrassCurve.Affine.equation_iff]
  simp [cubic]

@[simp] theorem negY_cubic (c x y : ZMod q) : (cubic c).negY x y = -y := by
  simp [WeierstrassCurve.Affine.negY, cubic]

section

variable (c : ZMod q) {x y x₁ y₁ x₂ y₂ : Fq}

theorem thirdPoint_eq (l x₁ y₁ x₂ : Fq) :
    thirdPoint l x₁ y₁ x₂ =
      affine (.ofZMod ((cubic c).addX x₁.toZMod x₂.toZMod l.toZMod))
        (.ofZMod ((cubic c).addY x₁.toZMod x₂.toZMod y₁.toZMod l.toZMod)) := by
  simp only [thirdPoint, affine.injEq, ← Residue.toZMod_inj]
  constructor
  · simp [WeierstrassCurve.Affine.addX, cubic]
  · simp [WeierstrassCurve.Affine.addY, WeierstrassCurve.Affine.negAddY,
      WeierstrassCurve.Affine.addX, cubic]
    ring

theorem ne_negY_of_ne_zero (hy : y ≠ 0) : y.toZMod ≠ (cubic c).negY x.toZMod y.toZMod := by
  rw [negY_cubic, Ne, ← Residue.add_eq_zero_iff]
  exact Fq.add_self_ne_zero hy

/-- The tangent, where it is not vertical. -/
theorem tryDouble_of_ne_zero (hy : y ≠ 0) :
    let l := (cubic c).slope x.toZMod x.toZMod y.toZMod y.toZMod
    (affine x y).tryDouble =
      .ok (affine (.ofZMod ((cubic c).addX x.toZMod x.toZMod l))
        (.ofZMod ((cubic c).addY x.toZMod x.toZMod y.toZMod l))) := by
  intro l
  obtain ⟨i, hi⟩ := Fq.exists_inverse (Fq.add_self_ne_zero hy)
  have hslope : (3 * x.square * i).toZMod = l := by
    simp only [l]
    rw [WeierstrassCurve.Affine.slope_of_Y_ne rfl (ne_negY_of_ne_zero c hy)]
    simp [Residue.toZMod_of_inverse hi, cubic, div_eq_mul_inv]
  rw [tryDouble, if_neg hy, hi, ← hslope]
  simp only [thirdPoint_eq c]

/-- The chord of two points that are not one above the other. -/
theorem tryAdd_of_ne (hx : x₁ ≠ x₂) :
    let l := (cubic c).slope x₁.toZMod x₂.toZMod y₁.toZMod y₂.toZMod
    (affine x₁ y₁).tryAdd (affine x₂ y₂) =
      .ok (affine (.ofZMod ((cubic c).addX x₁.toZMod x₂.toZMod l))
        (.ofZMod ((cubic c).addY x₁.toZMod x₂.toZMod y₁.toZMod l))) := by
  intro l
  obtain ⟨i, hi⟩ := Fq.exists_inverse (Fq.sub_ne_zero_of_ne hx)
  have hslope : ((y₂ - y₁) * i).toZMod = l := by
    simp only [l]
    rw [WeierstrassCurve.Affine.slope_of_X_ne fun h => hx (Residue.toZMod_inj.1 h),
      ← neg_sub y₂.toZMod, ← neg_sub x₂.toZMod, neg_div_neg_eq]
    simp [Residue.toZMod_of_inverse hi, div_eq_mul_inv]
  rw [tryAdd, if_neg hx, hi, ← hslope]
  simp only [thirdPoint_eq c]

end

/-! ## Points of one curve -/

/-- Infinity, or reduced coordinates that solve `y² = x³ + c`. -/
def OnCubic (c : Fq) : G1 → Prop
  | infinity => True
  | affine x y => x.val < q ∧ y.val < q ∧ y.square = x.cube + c

variable {c : Fq} {P Q R : G1}

theorem onCubic_affine_iff {x y : Fq} :
    (affine x y).OnCubic c ↔ (cubic c.toZMod).Equation x.toZMod y.toZMod := by
  have hx := x.val_lt
  have hy := y.val_lt
  rw [equation_cubic_iff, OnCubic, ← Residue.toZMod_inj]
  simp [hx, hy]

theorem onCubic_three_iff : P.OnCubic 3 ↔ P.OnCurve := by
  cases P with
  | infinity => exact Iff.rfl
  | affine x y => exact ⟨fun h => h.2.2, fun h => ⟨x.val_lt, y.val_lt, h⟩⟩

/-- Every point lies on some curve. -/
theorem exists_onCubic (P : G1) : ∃ c, P.OnCubic c := by
  cases P with
  | infinity => exact ⟨0, trivial⟩
  | affine x y =>
    refine ⟨y.square - x.cube, x.val_lt, y.val_lt, ?_⟩
    simp [← Residue.toZMod_inj]

/-- Only infinity lies on two. -/
theorem onCubic_unique {c' : Fq} (hP : P ≠ infinity) (h : P.OnCubic c) (h' : P.OnCubic c') :
    c = c' := by
  cases P with
  | infinity => exact absurd rfl hP
  | affine x y =>
    have heq := h.2.2.symm.trans h'.2.2
    rw [← Residue.toZMod_inj, Residue.toZMod_add, Residue.toZMod_add] at heq
    exact Residue.toZMod_inj.1 (add_left_cancel heq)

/-! ## The rules keep to it -/

theorem onCubic_neg (hP : P.OnCubic c) : (-P).OnCubic c := by
  cases P with
  | infinity => trivial
  | affine x y =>
    have h := (cubic c.toZMod).equation_neg x.toZMod y.toZMod
    rw [negY_cubic, ← Residue.toZMod_neg] at h
    exact onCubic_affine_iff.2 (h.2 (onCubic_affine_iff.1 hP))

theorem exists_tryDouble_onCubic (hP : P.OnCubic c) : ∃ R, P.tryDouble = .ok R ∧ R.OnCubic c := by
  cases P with
  | infinity => exact ⟨infinity, rfl, trivial⟩
  | affine x y =>
    by_cases hy : y = 0
    · exact ⟨infinity, by rw [tryDouble, if_pos hy], trivial⟩
    · have h := onCubic_affine_iff.1 hP
      refine ⟨_, tryDouble_of_ne_zero c.toZMod hy, onCubic_affine_iff.2 ?_⟩
      rw [Residue.toZMod_ofZMod, Residue.toZMod_ofZMod]
      exact WeierstrassCurve.Affine.equation_add h h fun hv => ne_negY_of_ne_zero c.toZMod hy hv.2

theorem exists_tryAdd_onCubic (hP : P.OnCubic c) (hQ : Q.OnCubic c) :
    ∃ R, P.tryAdd Q = .ok R ∧ R.OnCubic c := by
  cases P with
  | infinity => exact ⟨Q, rfl, hQ⟩
  | affine x₁ y₁ =>
    cases Q with
    | infinity => exact ⟨_, rfl, hP⟩
    | affine x₂ y₂ =>
      by_cases hx : x₁ = x₂
      · by_cases hy : y₁ + y₂ = 0
        · exact ⟨infinity, by rw [tryAdd, if_pos hx, if_pos hy], trivial⟩
        · rw [tryAdd, if_pos hx, if_neg hy]
          exact exists_tryDouble_onCubic hP
      · refine ⟨_, tryAdd_of_ne c.toZMod hx, onCubic_affine_iff.2 ?_⟩
        rw [Residue.toZMod_ofZMod, Residue.toZMod_ofZMod]
        exact WeierstrassCurve.Affine.equation_add (onCubic_affine_iff.1 hP)
          (onCubic_affine_iff.1 hQ) fun hv => hx (Residue.toZMod_inj.1 hv.1)

theorem exists_ladderStep_onCubic {acc : G1} (hP : P.OnCubic c) (hacc : acc.OnCubic c)
    (digit : Bool) : ∃ R, ladderStep P acc digit = .ok R ∧ R.OnCubic c := by
  obtain ⟨D, hD, hDc⟩ := exists_tryDouble_onCubic hacc
  rw [ladderStep, hD]
  cases digit with
  | false => exact ⟨D, rfl, hDc⟩
  | true => exact exists_tryAdd_onCubic hDc hP

theorem exists_ladder_onCubic {acc : G1} (hP : P.OnCubic c) (hacc : acc.OnCubic c)
    (digits : List Bool) : ∃ R, ladder P digits acc = .ok R ∧ R.OnCubic c := by
  induction digits generalizing acc with
  | nil => exact ⟨acc, rfl, hacc⟩
  | cons d ds ih =>
    obtain ⟨R, hR, hRc⟩ := exists_ladderStep_onCubic hP hacc d
    rw [ladder, hR]
    exact ih hRc

theorem exists_tryNsmul_onCubic (hP : P.OnCubic c) (k : Nat) :
    ∃ R, tryNsmul k P = .ok R ∧ R.OnCubic c := by
  have hstart : infinity.OnCubic c := trivial
  unfold tryNsmul
  split
  · exact ⟨infinity, rfl, hstart⟩
  · exact exists_ladder_onCubic hP hstart (binary k)

/-- A multiple on the curve of a point off it can only be infinity. -/
theorem not_onCurve_of_tryMul {k : Fr} (hP : ¬ P.OnCurve) (h : P.tryMul k = .ok R)
    (hR : R ≠ infinity) : ¬ R.OnCurve := by
  obtain ⟨c, hPc⟩ := exists_onCubic P
  obtain ⟨R', hR', hRc⟩ := exists_tryNsmul_onCubic hPc k.val
  cases h.symm.trans hR'
  intro hcurve
  have hc : c = 3 := onCubic_unique hR hRc (onCubic_three_iff.2 hcurve)
  exact hP (onCubic_three_iff.1 (hc ▸ hPc))

/-- **The rules never change curve.** Sums, doubles, opposites and multiples of points of
`y² = x³ + c` exist and are points of it again, with reduced coordinates, whatever `c` is. With
`c = 3` these are the points on the curve; and a point off the curve has no multiple on it but
infinity. -/
theorem keeps_cubic :
    (∀ (c : Fq) (P Q : G1), P.OnCubic c → Q.OnCubic c →
      (∃ R, P.tryAdd Q = .ok R ∧ R.OnCubic c) ∧
      (∃ R, P.tryDouble = .ok R ∧ R.OnCubic c) ∧
      (-P).OnCubic c ∧
      ∀ k : Fr, ∃ R, P.tryMul k = .ok R ∧ R.OnCubic c) ∧
    (∀ P Q : G1, P.OnCurve → Q.OnCurve →
      (∃ R, P.tryAdd Q = .ok R ∧ R.OnCurve) ∧ ∀ k : Fr, ∃ R, P.tryMul k = .ok R ∧ R.OnCurve) ∧
    ∀ P R : G1, ¬ P.OnCurve → ∀ k : Fr, P.tryMul k = .ok R → R ≠ infinity → ¬ R.OnCurve := by
  refine ⟨fun c P Q hP hQ => ?_, fun P Q hP hQ => ?_, fun P R hP k => not_onCurve_of_tryMul hP⟩
  · exact ⟨exists_tryAdd_onCubic hP hQ, exists_tryDouble_onCubic hP, onCubic_neg hP,
      fun k => exists_tryNsmul_onCubic hP k.val⟩
  · simp only [← onCubic_three_iff] at hP hQ ⊢
    exact ⟨exists_tryAdd_onCubic hP hQ, fun k => exists_tryNsmul_onCubic hP k.val⟩

/-- Two points of `y² = x³ + 8`, whose sum has `y = 0`. -/
theorem keeps_cubic_eight :
    let P := affine 1 3
    let Q := affine 2 4
    P.OnCubic 8 ∧ Q.OnCubic 8 ∧ ¬ P.OnCurve ∧ P.tryAdd Q = .ok (affine (-2) 0) ∧
      (affine (-2) 0).OnCubic 8 ∧
      ∀ (k : Fr) R, P.tryMul k = .ok R → R ≠ infinity → ¬ R.OnCurve := by
  intro P Q
  have hP : P.OnCubic 8 := by refine ⟨?_, ?_, ?_⟩ <;> decide
  have hQ : Q.OnCubic 8 := by refine ⟨?_, ?_, ?_⟩ <;> decide
  have hoff : ¬ P.OnCurve := by decide
  have hsum : settle (P.tryAdd Q) = affine (-2) 0 := by decide +kernel
  obtain ⟨hkeeps, -, hnever⟩ := keeps_cubic
  obtain ⟨⟨R, hR, hRc⟩, -⟩ := hkeeps 8 P Q hP hQ
  rw [hR] at hsum
  cases hsum
  exact ⟨hP, hQ, hoff, hR, hRc, fun k R => hnever P R hoff k⟩

end BlobSigner.G1
