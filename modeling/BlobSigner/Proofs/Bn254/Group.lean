import BlobSigner.Proofs.Bn254.Cubic
import Mathlib.AlgebraicGeometry.EllipticCurve.Affine.Point
/-!
# The group of the curve

The equation `y² = x³ + 3` is that of an elliptic curve over the field modulo `q`, whose points form
a commutative group. `ofPoint` gives each of its points the coordinates that this library computes
with: it meets exactly the points on the curve (`exists_ofPoint`) and carries sums, opposites and
multiples to those of the chord and tangent rules (`tryAdd_ofPoint`, `neg_ofPoint`,
`tryNsmul_ofPoint`), so these obey the laws of the group (`onCurve_commGroup`) and doubling and
adding yields the multiples that repeated sums are (`tryNsmul_eq_addTimes`).
-/
namespace BlobSigner.G1

open WeierstrassCurve.Affine (Point)

/-! ## The curve -/

def curve : WeierstrassCurve.Affine (ZMod q) := ⟨0, 0, 0, 0, 3⟩

theorem equation_iff {x y : ZMod q} : curve.Equation x y ↔ y ^ 2 = x ^ 3 + 3 := equation_cubic_iff

theorem discriminant_ne_zero : curve.Δ ≠ 0 := by
  have hval : curve.Δ = -((3888 : Nat) : ZMod q) := by
    simp only [curve, WeierstrassCurve.Δ, WeierstrassCurve.b₂, WeierstrassCurve.b₄,
      WeierstrassCurve.b₆, WeierstrassCurve.b₈]
    push_cast
    ring
  rw [hval, Ne, neg_eq_zero, ZMod.natCast_eq_zero_iff]
  exact Nat.not_dvd_of_pos_of_lt (by decide) (by decide)

theorem nonsingular_iff {x y : ZMod q} : curve.Nonsingular x y ↔ y ^ 2 = x ^ 3 + 3 := by
  rw [← curve.equation_iff_nonsingular_of_Δ_ne_zero discriminant_ne_zero, equation_iff]

@[simp] theorem negY_curve (x y : ZMod q) : curve.negY x y = -y := negY_cubic 3 x y

/-! ## Points with running coordinates -/

def ofPoint : curve.Point → G1
  | .zero => infinity
  | .some x y _ => affine (.ofZMod x) (.ofZMod y)

theorem ofPoint_zero : ofPoint 0 = infinity := rfl

theorem ofPoint_some {x y : Fq} (h : curve.Nonsingular x.toZMod y.toZMod) :
    ofPoint (.some _ _ h) = affine x y := by
  rw [ofPoint, Residue.ofZMod_toZMod, Residue.ofZMod_toZMod]

theorem onCurve_affine_iff {x y : Fq} :
    (affine x y).OnCurve ↔ curve.Nonsingular x.toZMod y.toZMod := by
  rw [nonsingular_iff, OnCurve, ← Residue.toZMod_inj]
  simp

theorem onCurve_ofPoint (p : curve.Point) : (ofPoint p).OnCurve := by
  cases p with
  | zero => trivial
  | some x y h =>
    rw [ofPoint, onCurve_affine_iff, Residue.toZMod_ofZMod, Residue.toZMod_ofZMod]
    exact h

/-- Each point on the curve comes from one of the group. -/
theorem exists_ofPoint {P : G1} (h : P.OnCurve) : ∃ p, ofPoint p = P := by
  cases P with
  | infinity => exact ⟨0, rfl⟩
  | affine x y => exact ⟨_, ofPoint_some (onCurve_affine_iff.1 h)⟩

/-- A point of the group, taken apart into running coordinates. -/
theorem cases_point (p : curve.Point) :
    p = 0 ∨ ∃ (x y : Fq) (h : curve.Nonsingular x.toZMod y.toZMod), p = .some _ _ h := by
  cases p with
  | zero => exact Or.inl rfl
  | some x y h =>
    refine Or.inr ⟨.ofZMod x, .ofZMod y, ?_, ?_⟩
    · rwa [Residue.toZMod_ofZMod, Residue.toZMod_ofZMod]
    · simp

theorem ofPoint_injective : Function.Injective ofPoint := by
  intro p p' h
  rcases cases_point p with rfl | ⟨x, y, hp, rfl⟩
  · rcases cases_point p' with rfl | ⟨x', y', hp', rfl⟩
    · rfl
    · rw [ofPoint_some] at h
      cases h
  · rcases cases_point p' with rfl | ⟨x', y', hp', rfl⟩
    · rw [ofPoint_some] at h
      cases h
    · rw [ofPoint_some, ofPoint_some] at h
      cases h
      rfl

/-! ## Sums -/

theorem neg_ofPoint (p : curve.Point) : -ofPoint p = ofPoint (-p) := by
  rcases cases_point p with rfl | ⟨x, y, h, rfl⟩
  · rfl
  · rw [ofPoint_some, Point.neg_some, ofPoint]
    show affine x (-y) = _
    rw [negY_curve, ← Residue.toZMod_neg, Residue.ofZMod_toZMod, Residue.ofZMod_toZMod]

theorem tryDouble_ofPoint (p : curve.Point) : (ofPoint p).tryDouble = .ok (ofPoint (p + p)) := by
  rcases cases_point p with rfl | ⟨x, y, h, rfl⟩
  · rw [add_zero]
    rfl
  · rw [ofPoint_some]
    by_cases hy : y = 0
    · subst hy
      have hvertical : (0 : Fq).toZMod = curve.negY x.toZMod (0 : Fq).toZMod := by
        rw [negY_curve, Residue.toZMod_zero, neg_zero]
      rw [Point.add_self_of_Y_eq hvertical, tryDouble, if_pos rfl]
      rfl
    · have htangent : y.toZMod ≠ curve.negY x.toZMod y.toZMod := ne_negY_of_ne_zero 3 hy
      rw [Point.add_self_of_Y_ne htangent, tryDouble_of_ne_zero 3 hy]
      rfl

theorem tryAdd_ofPoint (p p' : curve.Point) :
    (ofPoint p).tryAdd (ofPoint p') = .ok (ofPoint (p + p')) := by
  rcases cases_point p with rfl | ⟨x₁, y₁, h₁, rfl⟩
  · rw [zero_add]
    rfl
  · rcases cases_point p' with rfl | ⟨x₂, y₂, h₂, rfl⟩
    · rw [add_zero, ofPoint_some]
      rfl
    · by_cases hx : x₁ = x₂
      · subst hx
        by_cases hy : y₁ + y₂ = 0
        · -- opposite points
          have hopposite : y₁.toZMod = curve.negY x₁.toZMod y₂.toZMod := by
            rwa [negY_curve, ← Residue.add_eq_zero_iff]
          rw [Point.add_of_Y_eq rfl hopposite, ofPoint_some, ofPoint_some, tryAdd, if_pos rfl,
            if_pos hy]
          rfl
        · -- with one `x` and not opposite, the points are equal
          have hne : y₁.toZMod ≠ curve.negY x₁.toZMod y₂.toZMod := by
            rwa [negY_curve, Ne, ← Residue.add_eq_zero_iff]
          have hsame : y₁ = y₂ := Residue.toZMod_inj.1
            (WeierstrassCurve.Affine.Y_eq_of_Y_ne h₁.1 h₂.1 rfl hne)
          subst hsame
          rw [← tryDouble_ofPoint, ofPoint_some, tryAdd, if_pos rfl, if_neg hy]
      · have hchord : x₁.toZMod ≠ x₂.toZMod := fun h => hx (Residue.toZMod_inj.1 h)
        rw [Point.add_of_X_ne hchord, ofPoint_some, ofPoint_some, tryAdd_of_ne 3 hx]
        rfl

theorem double_ofPoint (p : curve.Point) : (ofPoint p).double = ofPoint (p + p) := by
  rw [double, tryDouble_ofPoint]
  rfl

theorem add_ofPoint (p p' : curve.Point) : ofPoint p + ofPoint p' = ofPoint (p + p') := by
  show settle ((ofPoint p).tryAdd (ofPoint p')) = _
  rw [tryAdd_ofPoint]
  rfl

/-! ## Multiples -/

theorem ladderStep_ofPoint (p : curve.Point) (n : Nat) (digit : Bool) :
    ladderStep (ofPoint p) (ofPoint (n • p)) digit = .ok (ofPoint ((2 * n + digit.toNat) • p)) := by
  have htwice : n • p + n • p = (2 * n) • p := by rw [← add_nsmul, two_mul]
  rw [ladderStep, tryDouble_ofPoint, htwice]
  cases digit with
  | false => rfl
  | true =>
    have hnext : (2 * n) • p + p = (2 * n + 1) • p := (succ_nsmul p (2 * n)).symm
    simp only [if_true, Bool.toNat_true]
    rw [tryAdd_ofPoint, hnext]

theorem ladder_ofPoint (p : curve.Point) (digits : List Bool) (n : Nat) :
    ladder (ofPoint p) digits (ofPoint (n • p)) =
      .ok (ofPoint ((digits.foldl (fun k d => 2 * k + d.toNat) n) • p)) := by
  induction digits generalizing n with
  | nil => rfl
  | cons d ds ih =>
    rw [ladder, ladderStep_ofPoint]
    exact ih (2 * n + d.toNat)

theorem tryNsmul_ofPoint (k : Nat) (p : curve.Point) :
    tryNsmul k (ofPoint p) = .ok (ofPoint (k • p)) := by
  by_cases h : ofPoint p = infinity
  · have hp : p = 0 := ofPoint_injective h
    rw [tryNsmul, if_pos h, hp, nsmul_zero]
    rfl
  · have hladder := ladder_ofPoint p (binary k) 0
    rw [foldl_binary, zero_nsmul] at hladder
    rw [tryNsmul, if_neg h]
    exact hladder

theorem mul_ofPoint (p : curve.Point) (k : Fr) : (ofPoint p).mul k = ofPoint (k.val • p) := by
  rw [mul, tryMul, tryNsmul_ofPoint]
  rfl

/-! ## Multiples as sums -/

/-- The point added `k` times to infinity. -/
def addTimes (P : G1) : Nat → Except ArithmeticError G1
  | 0 => .ok infinity
  | k + 1 =>
    match addTimes P k with
    | .error e => .error e
    | .ok acc => acc.tryAdd P

theorem addTimes_ofPoint (p : curve.Point) (k : Nat) :
    addTimes (ofPoint p) k = .ok (ofPoint (k • p)) := by
  induction k with
  | zero =>
    rw [zero_nsmul]
    rfl
  | succ k ih =>
    rw [addTimes, ih, succ_nsmul]
    exact tryAdd_ofPoint (k • p) p

/-- **Doubling and adding along the digits is adding again and again.** For a number of any size,
beyond the order too, the multiple of a point on the curve is the sum of as many copies of it. -/
theorem tryNsmul_eq_addTimes {P : G1} (hP : P.OnCurve) (k : Nat) :
    tryNsmul k P = addTimes P k ∧ ∃ S, addTimes P k = .ok S ∧ S.OnCurve := by
  obtain ⟨p, rfl⟩ := exists_ofPoint hP
  rw [tryNsmul_ofPoint, addTimes_ofPoint]
  exact ⟨rfl, _, rfl, onCurve_ofPoint _⟩

/-- One time more than the order. -/
theorem tryNsmul_eq_addTimes_generator :
    generator.OnCurve ∧ tryNsmul (r + 1) generator = addTimes generator (r + 1) := by
  have h : generator.OnCurve := by decide
  exact ⟨h, (tryNsmul_eq_addTimes h (r + 1)).1⟩

/-! ## The laws -/

/-- **The points of the curve are a commutative group.** Their sums and doubles always exist. -/
theorem onCurve_commGroup {P Q R : G1} (hP : P.OnCurve) (hQ : Q.OnCurve) (hR : R.OnCurve) :
    P.tryAdd Q = .ok (P + Q) ∧ (P + Q).OnCurve ∧
      P + Q = Q + P ∧ P + Q + R = P + (Q + R) ∧
      infinity + P = P ∧ P + infinity = P ∧
      (-P).OnCurve ∧ P + -P = infinity ∧
      P.tryDouble = .ok P.double ∧ P.double = P + P := by
  obtain ⟨p, rfl⟩ := exists_ofPoint hP
  obtain ⟨p', rfl⟩ := exists_ofPoint hQ
  obtain ⟨p'', rfl⟩ := exists_ofPoint hR
  simp only [← ofPoint_zero, neg_ofPoint, add_ofPoint, double_ofPoint, tryAdd_ofPoint,
    tryDouble_ofPoint]
  refine ⟨trivial, onCurve_ofPoint _, ?_, ?_, ?_, ?_, onCurve_ofPoint _, ?_, trivial, trivial⟩
  · rw [add_comm]
  · rw [add_assoc]
  · rw [zero_add]
  · rw [add_zero]
  · rw [add_neg_cancel]

/-- Three points of which the outer two are opposite. -/
theorem onCurve_commGroup_generator :
    generator.OnCurve ∧ generator.double.OnCurve ∧ (-generator).OnCurve ∧
      generator + generator.double + -generator = generator + (generator.double + -generator) := by
  have h : generator.OnCurve := by decide
  have hdouble : generator.double.OnCurve := by decide +kernel
  have hneg : (-generator).OnCurve := by decide
  exact ⟨h, hdouble, hneg, (onCurve_commGroup h hdouble hneg).2.2.2.1⟩

end BlobSigner.G1
