import BlobSigner.Proofs.Bn254.Total
import BlobSigner.Proofs.Radix
/-!
# Coordinates as bytes

A coordinate has one little-endian form, and no other bytes are read as one
(`Fq.ofLittleEndian_eq_ok_iff`); a contract's form is the same bytes from the other end. So the bytes
of a commitment and the coordinates that a contract reads determine each other
(`Commitment.affine_of_decode`), and only infinity has the contract's form of two zeros, as `(0, 0)`
is not on the curve (`G1.verifierForm_inj`).
-/
namespace BlobSigner

namespace Residue

variable {m : Nat} [Modulus m]

theorem ofNat_val (a : Residue m) : ofNat a.val = a := ext (Nat.mod_eq_of_lt a.val_lt)

theorem ofCanonical?_eq_some_iff {n : Nat} {a : Residue m} : ofCanonical? n = some a ↔ n = a.val := by
  rw [ofCanonical?]
  constructor
  · intro h
    split at h
    · rename_i hlt
      cases h
      exact (Nat.mod_eq_of_lt hlt).symm
    · cases h
  · rintro rfl
    rw [if_pos a.val_lt, ofNat_val]

end Residue

/-! ## One coordinate -/

namespace Fq

/-- A coordinate has thirty-two digits. -/
theorem val_lt_digits (a : Fq) : a.val < 256 ^ 32 := Nat.lt_trans a.val_lt (by decide)

theorem toBigEndian_eq (a : Fq) :
    a.toBigEndian = .ok ⟨Radix.bigEndian 32 a.val, Radix.length_bigEndian ..⟩ :=
  Radix.bigEndian32_of_lt (Nat.lt_trans a.val_lt (by decide +kernel))

/-- The canonical bytes of a coordinate are its digits. -/
theorem ofLittleEndian_eq_ok_iff {b : Bytes} {a : Fq} :
    ofLittleEndian b = .ok a ↔ b = Radix.littleEndian 32 a.val := by
  constructor
  · intro h
    rw [ofLittleEndian] at h
    split at h
    · cases h
    · rename_i hlength
      split at h
      · rename_i x hx
        cases h
        rw [← Residue.ofCanonical?_eq_some_iff.1 hx, ← Decidable.not_not.1 hlength,
          Radix.littleEndian_ofLittleEndian]
      · cases h
  · rintro rfl
    have hread : Radix.ofLittleEndian (Radix.littleEndian 32 a.val) = a.val := by
      rw [Radix.ofLittleEndian_littleEndian, Nat.mod_eq_of_lt a.val_lt_digits]
    rw [ofLittleEndian, if_neg (by simp), Residue.ofCanonical?_eq_some_iff.2 hread]

/-- The digits of a number below the modulus are read as that number. -/
theorem ofLittleEndian_of_lt {b : Bytes} (hlen : b.length = 32) (h : Radix.ofLittleEndian b < q) :
    ofLittleEndian b = .ok ⟨Radix.ofLittleEndian b, h⟩ := by
  rw [ofLittleEndian_eq_ok_iff]
  exact (Radix.eq_littleEndian_iff hlen (val_lt_digits ⟨_, h⟩)).2 rfl

theorem ofLittleEndian_of_not_lt {b : Bytes} (hlen : b.length = 32)
    (h : ¬ Radix.ofLittleEndian b < q) : ofLittleEndian b = .error .notCanonical := by
  rw [ofLittleEndian, if_neg (not_not.2 hlen), Residue.ofCanonical?, if_neg h]

theorem toLittleEndian_eq (a : Fq) :
    a.toLittleEndian = .ok ⟨Radix.littleEndian 32 a.val, Radix.length_littleEndian ..⟩ := by
  have hbig : Radix.bigEndian32 a.val = .ok ⟨Radix.bigEndian 32 a.val, Radix.length_bigEndian ..⟩ :=
    a.toBigEndian_eq
  rw [Residue.toLittleEndian, Radix.littleEndian32, hbig]
  simp [Except.map, Bytes32.reverse, Radix.bigEndian]

end Fq

/-! ## One scalar -/

namespace Fr

/-- A scalar has thirty-two digits. -/
theorem val_lt_digits (k : Fr) : k.val < 256 ^ 32 := Nat.lt_trans k.val_lt (by decide)

theorem toBigEndian_eq (k : Fr) :
    k.toBigEndian = .ok ⟨Radix.bigEndian 32 k.val, Radix.length_bigEndian ..⟩ :=
  Radix.bigEndian32_of_lt (Nat.lt_trans k.val_lt (by decide +kernel))

theorem ofBigEndian_eq_ok_iff {b : Bytes} {k : Fr} :
    ofBigEndian b = .ok k ↔ b.length = 32 ∧ Radix.ofBigEndian b = k.val := by
  rw [← Residue.ofCanonical?_eq_some_iff]
  by_cases hlength : b.length = 32
  · cases h : (Residue.ofCanonical? (Radix.ofBigEndian b) : Option Fr) <;>
      simp [ofBigEndian, hlength, h]
  · simp [ofBigEndian, hlength]

theorem ofBigEndian_of_not_lt {b : Bytes} (hlen : b.length = 32) (h : ¬ Radix.ofBigEndian b < r) :
    ofBigEndian b = .error .outOfRange := by
  rw [ofBigEndian, if_neg (not_not.2 hlen), Residue.ofCanonical?, if_neg h]

end Fr

/-! ## The equation of the curve -/

namespace G1

/-- The equation, of the numbers that stand for the coordinates. -/
theorem onCurve_affine_iff_modEq {x y : Fq} :
    (affine x y).OnCurve ↔ y.val ^ 2 ≡ x.val ^ 3 + 3 [MOD q] := by
  rw [OnCurve, ← Residue.toZMod_inj, ← ZMod.natCast_eq_natCast_iff]
  simp only [Residue.toZMod_square, Residue.toZMod_add, Residue.toZMod_cube,
    Residue.toZMod_numeral]
  push_cast
  exact Iff.rfl

end G1

/-! ## The uncompressed form -/

namespace G1

@[simp] theorem length_markLast (flag : UInt8) (b : Bytes) : (markLast flag b).length = b.length := by
  simp [markLast]

/-- Every point has 64 bytes, infinity too. -/
theorem length_of_encode {P : G1} {b : Bytes} (h : P.encode = .ok b) : b.length = 64 := by
  cases P with
  | infinity =>
    cases h
    simp
  | affine x y =>
    rw [encode] at h
    split at h
    · cases h
      split <;> simp [Bytes32.length_toList]
    · cases h
    · cases h

end G1

/-! ## A contract's form -/

namespace G1

theorem verifierForm_affine (x y : Fq) :
    (affine x y).verifierForm =
      .ok (⟨Radix.bigEndian 32 x.val, Radix.length_bigEndian ..⟩,
        ⟨Radix.bigEndian 32 y.val, Radix.length_bigEndian ..⟩) := by
  rw [verifierForm, Fq.toBigEndian_eq, Fq.toBigEndian_eq]

theorem not_onCurve_zero : ¬ (affine 0 0).OnCurve := by decide

/-- A point on the curve is not written as infinity is. -/
theorem verifierForm_affine_ne {x y : Fq} (h : (affine x y).OnCurve) :
    (affine x y).verifierForm ≠ .ok (.zero, .zero) := by
  intro hzero
  have hdigits : ∀ a : Fq, Radix.bigEndian 32 a.val = List.replicate 32 0 → a = 0 := fun a ha =>
    Residue.ext ((Radix.bigEndian_inj a.val_lt_digits (by decide)).1 ha)
  rw [verifierForm_affine] at hzero
  simp only [Except.ok.injEq, Prod.mk.injEq, Bytes32.zero, Bytes32.mk.injEq] at hzero
  rw [hdigits x hzero.1, hdigits y hzero.2] at h
  exact not_onCurve_zero h

theorem verifierForm_inj {P Q : G1} (hP : P.OnCurve) (hQ : Q.OnCurve) :
    P.verifierForm = Q.verifierForm ↔ P = Q := by
  constructor
  · intro h
    cases P with
    | infinity =>
      cases Q with
      | infinity => rfl
      | affine x y => exact absurd h.symm (verifierForm_affine_ne hQ)
    | affine x y =>
      cases Q with
      | infinity => exact absurd h (verifierForm_affine_ne hP)
      | affine x' y' =>
        simp only [verifierForm_affine, Except.ok.injEq, Prod.mk.injEq, Bytes32.mk.injEq] at h
        rw [Radix.bigEndian_inj x.val_lt_digits x'.val_lt_digits,
          Radix.bigEndian_inj y.val_lt_digits y'.val_lt_digits] at h
        rw [Residue.ext h.1, Residue.ext h.2]
  · rintro rfl
    rfl

end G1

/-! ## Commitments -/

/-- What is read as a commitment is a point on the curve, and its bytes are those of the two
coordinates. -/
theorem Commitment.affine_of_decode {b : Bytes} {P : G1} (h : decode b = .ok P) :
    P.OnCurve ∧ b.length = 64 ∧ ∃ x y : Fq, P = .affine x y ∧
      b.take 32 = Radix.littleEndian 32 x.val ∧ b.drop 32 = Radix.littleEndian 32 y.val := by
  rw [decode] at h
  split at h
  · cases h
  · rename_i hlength
    split at h
    · cases h
    · cases h
    · rename_i x y hx hy
      by_cases hcurve : (G1.affine x y).OnCurve
      · simp only [if_pos hcurve] at h
        split at h
        · cases h
          exact ⟨hcurve, Decidable.not_not.1 hlength, x, y, rfl,
            Fq.ofLittleEndian_eq_ok_iff.1 hx, Fq.ofLittleEndian_eq_ok_iff.1 hy⟩
        · cases h
        · cases h
      · simp only [if_neg hcurve, reduceCtorEq] at h

/-- Commitments with one point are the same bytes. -/
theorem Commitment.decode_inj {c c' : Bytes} {P : G1} (h : decode c = .ok P)
    (h' : decode c' = .ok P) : c = c' := by
  obtain ⟨-, -, x, y, rfl, hx, hy⟩ := affine_of_decode h
  obtain ⟨-, -, x', y', heq, hx', hy'⟩ := affine_of_decode h'
  cases heq
  rw [← List.take_append_drop 32 c, ← List.take_append_drop 32 c', hx, hy, hx', hy']

end BlobSigner
