import BlobSigner.Proofs.Bn254.Group
import Mathlib.FieldTheory.Finite.Basic
import Mathlib.GroupTheory.Perm.Cycle.Type
import Mathlib.GroupTheory.SpecificGroups.Cyclic
/-!
# The order of the curve

The generator has the order `r`, a prime, so `r` divides the number of points. With at most two
points for each `x` there are fewer than `3 r` of them, and not `2 r`, since a point of order two
would have `y = 0`, and `-3` is no cube. So there are exactly `r` points (`card_point`), each a
multiple of the generator by one scalar only, and scalars act on points as numbers do on a line
(`mul_oneDimensional`).
-/
namespace BlobSigner.G1

open WeierstrassCurve.Affine (Point)

instance : Fact r.Prime := ⟨prime_r⟩

/-! ## No point of order two -/

theorem cube_add_three_ne_zero (x : ZMod q) : x ^ 3 + 3 ≠ 0 := by
  intro h
  have hcube : x ^ 3 = -3 := eq_neg_of_add_eq_zero_left h
  have hx : x ≠ 0 := by
    rintro rfl
    rw [zero_pow (by decide), zero_eq_neg] at hcube
    exact absurd hcube (by decide)
  have hpow : (-3 : ZMod q) ^ ((q - 1) / 3) = 1 := by
    rw [← hcube, ← pow_mul, Nat.mul_div_cancel' (by decide)]
    exact ZMod.pow_card_sub_one_eq_one hx
  have hne : (-3 : Fq).pow ((q - 1) / 3) ≠ 1 := by decide +kernel
  refine hne (Residue.toZMod_inj.1 ?_)
  simpa using hpow

theorem y_ne_zero {x y : Fq} (h : curve.Nonsingular x.toZMod y.toZMod) : y ≠ 0 := by
  rintro rfl
  rw [nonsingular_iff, Residue.toZMod_zero, zero_pow (by decide)] at h
  exact cube_add_three_ne_zero _ h.symm

theorem add_self_ne_zero {p : curve.Point} (hp : p ≠ 0) : p + p ≠ 0 := by
  intro h
  rcases cases_point p with rfl | ⟨x, y, hxy, rfl⟩
  · exact hp rfl
  · have hneg := eq_neg_of_add_eq_zero_left h
    rw [Point.neg_some, Point.some.injEq, negY_curve] at hneg
    exact Fq.add_self_ne_zero (y_ne_zero hxy) (Residue.add_eq_zero_iff.2 hneg.2)

/-! ## Counting points -/

/-- A point by its `x` and by which of two opposite `y` it has. -/
def pointCode : curve.Point → Option (ZMod q × Bool)
  | .zero => none
  | .some x y _ => some (x, decide ((-y).val < y.val))

theorem pointCode_injective : Function.Injective pointCode := by
  intro p p' h
  cases p with
  | zero =>
    cases p' with
    | zero => rfl
    | some x' y' h' => cases h
  | some x y hp =>
    cases p' with
    | zero => cases h
    | some x' y' hp' =>
      simp only [pointCode, Option.some.injEq, Prod.mk.injEq, decide_eq_decide] at h
      obtain ⟨rfl, hlarger⟩ := h
      have hy : y = y' := by
        have hsquare : y ^ 2 = y' ^ 2 := (nonsingular_iff.1 hp).trans (nonsingular_iff.1 hp').symm
        rcases sq_eq_sq_iff_eq_or_eq_neg.1 hsquare with heq | rfl
        · exact heq
        · rw [neg_neg] at hlarger
          have hval : (-y').val = y'.val := by omega
          exact ZMod.val_injective q hval
      subst hy
      rfl

instance : Finite curve.Point := Finite.of_injective _ pointCode_injective

theorem card_point_le : Nat.card curve.Point ≤ 2 * q + 1 := by
  refine (Nat.card_le_card_of_injective _ pointCode_injective).trans (le_of_eq ?_)
  rw [Finite.card_option, Nat.card_prod, Nat.card_zmod, Nat.card_eq_fintype_card,
    Fintype.card_bool, Nat.mul_comm]

theorem onCurve_generator : generator.OnCurve := by decide

theorem generator_ne_infinity : generator ≠ infinity := nofun

/-- The generator as a point of the group. -/
theorem exists_generator : ∃ g : curve.Point, ofPoint g = generator ∧ addOrderOf g = r := by
  obtain ⟨g, hg⟩ := exists_ofPoint onCurve_generator
  refine ⟨g, hg, addOrderOf_eq_prime ?_ ?_⟩
  · have hinside := inSubgroup?_generator
    rw [← hg, inSubgroup?, tryNsmul_ofPoint] at hinside
    have hinfinity : ofPoint (r • g) = infinity := by
      simpa [Except.map] using hinside
    exact ofPoint_injective hinfinity
  · rintro rfl
    cases hg

theorem card_point : Nat.card curve.Point = r := by
  obtain ⟨g, -, hg⟩ := exists_generator
  obtain ⟨c, hc⟩ : r ∣ Nat.card curve.Point := hg ▸ addOrderOf_dvd_natCard g
  have hpos : 0 < Nat.card curve.Point := Nat.card_pos
  have hle := card_point_le
  have hsmall : 2 * q + 1 < r * 3 := by decide
  have hc3 : c < 3 := by
    by_contra hge
    have := Nat.mul_le_mul_left r (Nat.not_lt.1 hge)
    omega
  have hc0 : c ≠ 0 := by
    rintro rfl
    omega
  have hc2 : c ≠ 2 := by
    rintro rfl
    -- an even number of points would include one of order two
    obtain ⟨p, hp⟩ := exists_prime_addOrderOf_dvd_card' 2 (hc ▸ Nat.dvd_mul_left 2 r)
    have hne : p ≠ 0 := by
      rintro rfl
      rw [addOrderOf_zero] at hp
      omega
    refine add_self_ne_zero hne ?_
    rw [← two_nsmul, ← hp, addOrderOf_nsmul_eq_zero]
  have hc1 : c = 1 := by omega
  rw [hc, hc1, Nat.mul_one]

/-! ## Multiples by scalars -/

theorem addOrderOf_dvd_r (p : curve.Point) : addOrderOf p ∣ r := by
  rw [← card_point]
  exact addOrderOf_dvd_natCard p

theorem addOrderOf_point {p : curve.Point} (hp : p ≠ 0) : addOrderOf p = r :=
  (prime_r.eq_one_or_self_of_dvd _ (addOrderOf_dvd_r p)).resolve_left fun h =>
    hp (AddMonoid.addOrderOf_eq_one_iff.1 h)

theorem mod_nsmul_point (n : Nat) (p : curve.Point) : (n % r) • p = n • p :=
  nsmul_eq_nsmul_iff_modEq.2 ((Nat.mod_modEq n r).of_dvd (addOrderOf_dvd_r p))

/-- Different scalars have different multiples. -/
theorem val_nsmul_inj {p : curve.Point} (hp : p ≠ 0) {a b : Fr} :
    a.val • p = b.val • p ↔ a = b := by
  constructor
  · intro h
    have hmod := nsmul_eq_nsmul_iff_modEq.1 h
    rw [addOrderOf_point hp] at hmod
    exact Residue.ext (hmod.eq_of_lt_of_lt a.val_lt b.val_lt)
  · rintro rfl
    rfl

theorem exists_val_nsmul {g : curve.Point} (hg : g ≠ 0) (p : curve.Point) :
    ∃ k : Fr, k.val • g = p := by
  have hp : p ∈ AddSubgroup.zmultiples g := mem_zmultiples_of_prime_card card_point hg
  obtain ⟨n, hn⟩ := mem_multiples_iff_mem_zmultiples.2 hp
  exact ⟨.ofNat n, (mod_nsmul_point n g).trans hn⟩

/-- The order takes every point to infinity, so none is outside the subgroup. -/
theorem inSubgroup?_of_onCurve {P : G1} (h : P.OnCurve) : P.inSubgroup? = .ok true := by
  obtain ⟨p, rfl⟩ := exists_ofPoint h
  have hzero : r • p = 0 := addOrderOf_dvd_iff_nsmul_eq_zero.1 (addOrderOf_dvd_r p)
  rw [inSubgroup?, tryNsmul_ofPoint, hzero]
  rfl

theorem onCurve_of_tryMul {P S : G1} {k : Fr} (hP : P.OnCurve) (h : P.tryMul k = .ok S) :
    S.OnCurve := by
  obtain ⟨p, rfl⟩ := exists_ofPoint hP
  rw [tryMul, tryNsmul_ofPoint, Except.ok.injEq] at h
  exact h ▸ onCurve_ofPoint _

theorem tryMul_eq_addTimes {P : G1} (hP : P.OnCurve) (k : Fr) : P.tryMul k = P.addTimes k.val := by
  obtain ⟨p, rfl⟩ := exists_ofPoint hP
  rw [tryMul, tryNsmul_ofPoint, addTimes_ofPoint]

theorem tryMul_inj {P : G1} (hP : P.OnCurve) (hne : P ≠ infinity) {a b : Fr} :
    P.tryMul a = P.tryMul b ↔ a = b := by
  obtain ⟨p, rfl⟩ := exists_ofPoint hP
  have hp : p ≠ 0 := by
    rintro rfl
    exact hne ofPoint_zero
  rw [tryMul, tryMul, tryNsmul_ofPoint, tryNsmul_ofPoint, Except.ok.injEq,
    ofPoint_injective.eq_iff, val_nsmul_inj hp]

/-- The multiple by zero is infinity, so no other one is. -/
theorem ne_infinity_of_tryMul {P S : G1} {k : Fr} (hP : P.OnCurve) (hne : P ≠ infinity) (hk : k ≠ 0)
    (h : P.tryMul k = .ok S) : S ≠ infinity := by
  rintro rfl
  have hzero : P.tryMul 0 = .ok infinity := by
    obtain ⟨p, rfl⟩ := exists_ofPoint hP
    have hnone : (0 : Fr).val • p = 0 := zero_nsmul p
    rw [tryMul, tryNsmul_ofPoint, hnone, ofPoint_zero]
  exact hk ((tryMul_inj hP hne).1 (h.trans hzero.symm))

/-- **The curve is a line over the scalars.** Every point on it lies in the subgroup, multiplication
by scalars is linear in the scalar and in the point, a point other than infinity has different
multiples for different scalars, and every point is one multiple of the generator. -/
theorem mul_oneDimensional {P : G1} (hP : P.OnCurve) (a b : Fr) :
    P.inSubgroup? = .ok true ∧
      P.tryMul a = .ok (P.mul a) ∧ (P.mul a).OnCurve ∧
      P.mul (a + b) = P.mul a + P.mul b ∧ P.mul (a * b) = (P.mul b).mul a ∧
      P.mul 1 = P ∧ (∀ Q : G1, Q.OnCurve → (P + Q).mul a = P.mul a + Q.mul a) ∧
      (P ≠ infinity → P.mul a = P.mul b → a = b) ∧
      (P ≠ infinity → P.mul a = infinity → a = 0) ∧
      ∃! k : Fr, P = generator.mul k := by
  obtain ⟨p, rfl⟩ := exists_ofPoint hP
  obtain ⟨g, hg, horder⟩ := exists_generator
  have hgen : g ≠ 0 := by
    rintro rfl
    cases hg
  have hne : ofPoint p ≠ infinity → p ≠ 0 := fun h hp => h (hp ▸ ofPoint_zero)
  simp only [← hg, mul_ofPoint, add_ofPoint, ofPoint_injective.eq_iff]
  refine ⟨?_, ?_, onCurve_ofPoint _, ?_, ?_, ?_, ?_, ?_, ?_, ?_⟩
  · rw [inSubgroup?, tryNsmul_ofPoint, ← card_point, card_nsmul_eq_zero']
    rfl
  · exact tryNsmul_ofPoint a.val p
  · show ((a.val + b.val) % r) • p = _
    rw [mod_nsmul_point, add_nsmul]
  · show ((a.val * b.val) % r) • p = _
    rw [mod_nsmul_point, mul_nsmul']
  · show (1 % r) • p = p
    rw [mod_nsmul_point, one_nsmul]
  · intro Q hQ
    obtain ⟨p', rfl⟩ := exists_ofPoint hQ
    rw [add_ofPoint, mul_ofPoint, mul_ofPoint, add_ofPoint, nsmul_add]
  · exact fun h => (val_nsmul_inj (hne h)).1
  · intro h hzero
    rw [← ofPoint_zero, ofPoint_injective.eq_iff] at hzero
    exact (val_nsmul_inj (hne h)).1 (hzero.trans (zero_nsmul p).symm)
  · obtain ⟨k, hk⟩ := exists_val_nsmul hgen p
    exact ⟨k, hk.symm, fun k' hk' => (val_nsmul_inj hgen).1 (hk'.symm.trans hk.symm)⟩

/-- Scalars whose sum passes the order. -/
theorem mul_oneDimensional_generator :
    generator.OnCurve ∧ generator ≠ infinity ∧
      generator.mul (.ofNat (r - 1) + 3) = generator.mul (.ofNat (r - 1)) + generator.mul 3 ∧
      (.ofNat (r - 1) + 3 : Fr) = 2 ∧ generator.mul (.ofNat (r - 1)) ≠ generator.mul 3 := by
  have h : generator.OnCurve := by decide
  have hne : generator ≠ infinity := nofun
  obtain ⟨-, -, -, hadd, -, -, -, hinj, -⟩ := mul_oneDimensional h (.ofNat (r - 1)) 3
  exact ⟨h, hne, hadd, by decide, fun heq => absurd (hinj hne heq) (by decide)⟩

end BlobSigner.G1
