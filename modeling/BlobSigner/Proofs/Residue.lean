import BlobSigner.Residue
import Mathlib.Algebra.Field.ZMod
import Mathlib.Data.ZMod.Basic
import Mathlib.Tactic.LinearCombination
/-!
# Residues as elements of the ring of integers modulo `m`

`toZMod` carries each operation on residues to the one of `ZMod m`, and loses nothing. Powers are
the ring's powers, and modulo a prime every residue but zero has an inverse.
-/
namespace BlobSigner

/-! ## Greatest common divisors -/

theorem euclid_fst (r₀ r₁ : Nat) (t₀ t₁ : Int) : (euclid r₀ r₁ t₀ t₁).1 = Nat.gcd r₀ r₁ := by
  induction r₀, r₁, t₀, t₁ using euclid.induct with
  | case1 r₀ t₀ t₁ =>
    rw [euclid]
    simp
  | case2 r₀ r₁ t₀ t₁ h ih =>
    rw [euclid, dif_neg h, ih, Nat.gcd_comm r₁, ← Nat.gcd_rec, Nat.gcd_comm]

theorem bezout_fst (m a : Nat) : (bezout m a).1 = Nat.gcd m a := euclid_fst m a 0 1

/-- What the coefficients bring `a` to stays the two remainders. -/
theorem euclid_snd {m : Nat} (a : ZMod m) (r₀ r₁ : Nat) (t₀ t₁ : Int) (h₀ : t₀ * a = r₀)
    (h₁ : t₁ * a = r₁) : (euclid r₀ r₁ t₀ t₁).2 * a = (euclid r₀ r₁ t₀ t₁).1 := by
  induction r₀, r₁, t₀, t₁ using euclid.induct with
  | case1 r₀ t₀ t₁ =>
    rw [euclid]
    simpa using h₀
  | case2 r₀ r₁ t₀ t₁ h ih =>
    have hdiv : (r₁ : ZMod m) * (r₀ / r₁ : Nat) + (r₀ % r₁ : Nat) = r₀ := by
      rw [← Nat.cast_mul, ← Nat.cast_add, Nat.div_add_mod]
    have hnext : ((t₀ - (r₀ / r₁ : Nat) * t₁ : Int) : ZMod m) * a = (r₀ % r₁ : Nat) := by
      rw [Int.cast_sub, Int.cast_mul, Int.cast_natCast]
      linear_combination h₀ - (r₀ / r₁ : Nat) * h₁ - hdiv
    rw [euclid, dif_neg h]
    exact ih h₁ hnext

theorem bezout_snd {m : Nat} (a : Nat) : (bezout m a).2 * (a : ZMod m) = Nat.gcd m a := by
  rw [← bezout_fst]
  exact euclid_snd (a : ZMod m) m a 0 1 (by simp) (by simp)

namespace Residue

def toZMod {m : Nat} (a : Residue m) : ZMod m := a.val

theorem toZMod_inj {m : Nat} {a b : Residue m} : a.toZMod = b.toZMod ↔ a = b := by
  constructor
  · intro h
    have hmod := (ZMod.natCast_eq_natCast_iff' a.val b.val m).1 h
    rw [Nat.mod_eq_of_lt a.val_lt, Nat.mod_eq_of_lt b.val_lt] at hmod
    exact ext hmod
  · rintro rfl
    rfl

/-- Bringing a remainder up keeps it the same in the ring. -/
theorem cast_normalize (m : Nat) (v : Int) : ((normalize m v : Int) : ZMod m) = v := by
  have htmod : ((v.tmod m : Int) : ZMod m) = v := by
    rw [Int.tmod_def, Int.cast_sub, Int.cast_mul, Int.cast_natCast, ZMod.natCast_self, zero_mul,
      sub_zero]
  unfold normalize
  dsimp only
  split
  · rw [Int.cast_add, Int.cast_natCast, ZMod.natCast_self, add_zero, htmod]
  · exact htmod

variable {m : Nat} [Modulus m]

/-! ## Ring operations -/

@[simp] theorem toZMod_ofNat (n : Nat) : (ofNat n : Residue m).toZMod = n := ZMod.natCast_mod n m

@[simp] theorem toZMod_ofInt (v : Int) : (ofInt v : Residue m).toZMod = v := by
  show (((normalize m v).toNat : Nat) : ZMod m) = v
  rw [← Int.cast_natCast, Int.toNat_of_nonneg (normalize_bounds Modulus.pos v).1, cast_normalize]

/-- On a natural number there is nothing to bring up. -/
theorem ofInt_natCast (n : Nat) : (ofInt n : Residue m) = ofNat n := by
  rw [← toZMod_inj, toZMod_ofInt, toZMod_ofNat, Int.cast_natCast]

@[simp] theorem toZMod_zero : (0 : Residue m).toZMod = 0 := by
  rw [← Nat.cast_zero]
  exact toZMod_ofNat 0

@[simp] theorem toZMod_one : (1 : Residue m).toZMod = 1 := by
  rw [← Nat.cast_one]
  exact toZMod_ofNat 1

@[simp] theorem toZMod_add (a b : Residue m) : (a + b).toZMod = a.toZMod + b.toZMod := by
  show (ofNat (a.val + b.val) : Residue m).toZMod = _
  rw [toZMod_ofNat, Nat.cast_add]
  rfl

@[simp] theorem toZMod_sub (a b : Residue m) : (a - b).toZMod = a.toZMod - b.toZMod := by
  show (ofInt (a.val - b.val) : Residue m).toZMod = _
  rw [toZMod_ofInt, Int.cast_sub, Int.cast_natCast, Int.cast_natCast]
  rfl

@[simp] theorem toZMod_mul (a b : Residue m) : (a * b).toZMod = a.toZMod * b.toZMod := by
  show (ofNat (a.val * b.val) : Residue m).toZMod = _
  rw [toZMod_ofNat, Nat.cast_mul]
  rfl

@[simp] theorem toZMod_neg (a : Residue m) : (-a).toZMod = -a.toZMod := by
  show (ofInt (-a.val) : Residue m).toZMod = _
  rw [toZMod_ofInt, Int.cast_neg, Int.cast_natCast]
  rfl

@[simp] theorem toZMod_numeral (n : Nat) [n.AtLeastTwo] :
    (no_index (OfNat.ofNat n) : Residue m).toZMod = OfNat.ofNat n :=
  toZMod_ofNat n

theorem add_eq_zero_iff {a b : Residue m} : a + b = 0 ↔ a.toZMod = -b.toZMod := by
  rw [← toZMod_inj, toZMod_add, toZMod_zero, add_eq_zero_iff_eq_neg]

@[simp] theorem toZMod_square (a : Residue m) : a.square.toZMod = a.toZMod ^ 2 := by
  rw [square, toZMod_mul, sq]

@[simp] theorem toZMod_cube (a : Residue m) : a.cube.toZMod = a.toZMod ^ 3 := by
  rw [cube, toZMod_mul, toZMod_square, ← pow_succ]

/-! ## Back from the ring -/

def ofZMod (x : ZMod m) : Residue m := ofNat x.val

@[simp] theorem toZMod_ofZMod (x : ZMod m) : (ofZMod x : Residue m).toZMod = x := by
  have : NeZero m := ⟨Nat.ne_of_gt Modulus.pos⟩
  rw [ofZMod, toZMod_ofNat, ZMod.natCast_zmod_val]

@[simp] theorem ofZMod_toZMod (a : Residue m) : ofZMod a.toZMod = a :=
  toZMod_inj.1 (toZMod_ofZMod a.toZMod)

/-! ## Powers -/

theorem pow_of_pos (a : Residue m) {e : Nat} (h : e ≠ 0) :
    a.pow e = if e % 2 == 1 then (a.pow (e / 2)).square * a else (a.pow (e / 2)).square := by
  simp only [pow, binary_of_pos h, List.foldl_append, List.foldl_cons, List.foldl_nil]

@[simp] theorem toZMod_pow (a : Residue m) (e : Nat) : (a.pow e).toZMod = a.toZMod ^ e := by
  induction e using Nat.strongRecOn with
  | _ e ih =>
    by_cases h : e = 0
    · subst h
      simp [pow]
    · rw [pow_of_pos a h]
      have hhalf := ih (e / 2) (by omega)
      have he : e = e / 2 * 2 + e % 2 := (Nat.div_add_mod' e 2).symm
      split
      · rename_i hodd
        have hodd : e % 2 = 1 := by simpa using hodd
        rw [toZMod_mul, toZMod_square, hhalf, ← pow_mul, ← pow_succ]
        congr 1
        omega
      · rename_i heven
        have heven : e % 2 = 0 := by simpa using heven
        rw [toZMod_square, hhalf, ← pow_mul]
        congr 1
        omega

theorem zpow_of_neg (a : Residue m) {e : Int} (h : e < 0) : a.zpow e = .error .negativeExponent :=
  if_pos h

theorem zpow_of_nonneg (a : Residue m) {e : Int} (h : 0 ≤ e) : a.zpow e = .ok (a.pow e.toNat) :=
  if_neg (Int.not_lt.2 h)

theorem zpow_eq_error_iff {a : Residue m} {e : Int} : a.zpow e = .error .negativeExponent ↔ e < 0 := by
  constructor
  · intro h
    by_contra hneg
    rw [zpow_of_nonneg a (Int.not_lt.1 hneg)] at h
    cases h
  · exact zpow_of_neg a

/-- A product of `n` equal factors, one after the other. -/
theorem toZMod_foldl_replicate (s a : Residue m) (n : Nat) :
    ((List.replicate n a).foldl (· * ·) s).toZMod = s.toZMod * a.toZMod ^ n := by
  induction n generalizing s with
  | zero => simp
  | succ n ih => rw [List.replicate_succ, List.foldl_cons, ih, toZMod_mul, pow_succ', mul_assoc]

theorem pow_eq_foldl (a : Residue m) (n : Nat) :
    a.pow n = (List.replicate n a).foldl (· * ·) 1 := by
  rw [← toZMod_inj, toZMod_foldl_replicate, toZMod_pow, toZMod_one, one_mul]

/-! ## Inverses -/

theorem val_ne_zero {a : Residue m} (h : a ≠ 0) : a.val ≠ 0 := by
  intro h0
  refine h (ext ?_)
  rw [h0]
  exact (Nat.zero_mod m).symm

theorem one_le_val_iff {a : Residue m} : 1 ≤ a.val ↔ a ≠ 0 := by
  constructor
  · rintro hpos rfl
    exact absurd (Nat.zero_mod m) (Nat.ne_of_gt hpos)
  · exact fun h => Nat.one_le_iff_ne_zero.2 (val_ne_zero h)

theorem inverse_zero : (0 : Residue m).inverse = .error .noInverse := if_pos (Nat.zero_mod m)

theorem toZMod_ne_zero {a : Residue m} (h : a ≠ 0) : a.toZMod ≠ 0 :=
  fun h0 => h (toZMod_inj.1 (h0.trans toZMod_zero.symm))

/-- Modulo a prime only zero has no inverse. -/
theorem exists_inverse (hm : m.Prime) {a : Residue m} (h : a ≠ 0) : ∃ b, a.inverse = .ok b := by
  have h0 := val_ne_zero h
  have hcoprime : Nat.gcd m a.val = 1 :=
    hm.coprime_iff_not_dvd.2 (Nat.not_dvd_of_pos_of_lt (Nat.pos_of_ne_zero h0) a.val_lt)
  have hg : (bezout m a.val).1 = 1 := (bezout_fst m a.val).trans hcoprime
  simp only [inverse, if_neg h0]
  exact ⟨_, if_pos hg⟩

/-- What `inverse` yields is the inverse in the field. -/
theorem toZMod_of_inverse [Fact m.Prime] {a b : Residue m} (h : a.inverse = .ok b) :
    b.toZMod = a.toZMod⁻¹ := by
  unfold inverse at h
  split at h
  · cases h
  · dsimp only at h
    split at h
    · rename_i hg
      cases h
      rw [bezout_fst] at hg
      have hmul : (ofInt (bezout m a.val).2 : Residue m).toZMod * a.toZMod = 1 := by
        rw [toZMod_ofInt, toZMod, bezout_snd, hg, Nat.cast_one]
      exact eq_inv_of_mul_eq_one_left hmul
    · cases h

/-- Only residues other than zero have one. -/
theorem mul_of_inverse [Fact m.Prime] {a b : Residue m} (h : a.inverse = .ok b) :
    a ≠ 0 ∧ b * a = 1 := by
  have hne : a ≠ 0 := by
    rintro rfl
    cases inverse_zero.symm.trans h
  refine ⟨hne, toZMod_inj.1 ?_⟩
  rw [toZMod_mul, toZMod_of_inverse h, toZMod_one, inv_mul_cancel₀ (toZMod_ne_zero hne)]

theorem inverse_eq_error_iff [Fact m.Prime] {a : Residue m} : a.inverse = .error .noInverse ↔ a = 0 := by
  constructor
  · intro h
    by_contra hne
    obtain ⟨b, hb⟩ := exists_inverse Fact.out hne
    cases hb.symm.trans h
  · rintro rfl
    exact inverse_zero

end Residue

end BlobSigner
