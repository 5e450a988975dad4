import BlobSigner.Proofs.Bn254.Prime
import BlobSigner.Proofs.Radix
import BlobSigner.Proofs.Residue
import BlobSigner.Bn254.Commitment
import BlobSigner.Signature
/-!
# Point arithmetic never fails

The chord and tangent rules divide by `y + y` where `y` is not zero and by `x₂ - x₁` where the two
differ. As `q` is an odd prime these have inverses, on the curve and off it, so sums, multiples,
byte forms and signatures exist for all points: `exists_sign`.
-/
namespace BlobSigner

instance : Fact q.Prime := ⟨prime_q⟩

namespace Fq

theorem add_self_ne_zero {y : Fq} (h : y ≠ 0) : y + y ≠ 0 := by
  intro h2
  have hz := congrArg Residue.toZMod h2
  rw [Residue.toZMod_add, Residue.toZMod_zero, ← two_mul] at hz
  have htwo : (2 : ZMod q) ≠ 0 := by
    rw [← Nat.cast_two, Ne, ZMod.natCast_eq_zero_iff]
    exact fun hdvd => absurd (Nat.le_of_dvd (by decide) hdvd) (by decide)
  exact Residue.toZMod_ne_zero h ((mul_eq_zero.1 hz).resolve_left htwo)

theorem sub_ne_zero_of_ne {a b : Fq} (h : a ≠ b) : b - a ≠ 0 := by
  intro h0
  have hz := congrArg Residue.toZMod h0
  rw [Residue.toZMod_sub, Residue.toZMod_zero, sub_eq_zero] at hz
  exact h (Residue.toZMod_inj.1 hz).symm

theorem exists_inverse {a : Fq} (h : a ≠ 0) : ∃ b, a.inverse = .ok b :=
  Residue.exists_inverse prime_q h

/-- Coordinates fit thirty-two bytes. -/
theorem exists_toBigEndian (a : Fq) : ∃ b, a.toBigEndian = .ok b := by
  have hq : q < 1 <<< 256 := by decide +kernel
  exact ⟨_, Radix.bigEndian32_of_lt (Nat.lt_trans a.val_lt hq)⟩

theorem exists_toLittleEndian (a : Fq) : ∃ b, a.toLittleEndian = .ok b := by
  obtain ⟨b, hb⟩ := exists_toBigEndian a
  refine ⟨b.reverse, ?_⟩
  rw [Residue.toBigEndian] at hb
  rw [Residue.toLittleEndian, Radix.littleEndian32, hb]
  rfl

end Fq

namespace G1

/-! ## Sums and multiples -/

theorem exists_tryDouble (P : G1) : ∃ Q, P.tryDouble = .ok Q := by
  cases P with
  | infinity => exact ⟨_, rfl⟩
  | affine x y =>
    by_cases h : y = 0
    · exact ⟨infinity, by simp only [tryDouble, if_pos h]⟩
    · obtain ⟨i, hi⟩ := Fq.exists_inverse (Fq.add_self_ne_zero h)
      simp only [tryDouble, if_neg h, hi]
      exact ⟨_, rfl⟩

theorem exists_tryAdd (P Q : G1) : ∃ R, P.tryAdd Q = .ok R := by
  cases P with
  | infinity => exact ⟨_, rfl⟩
  | affine x₁ y₁ =>
    cases Q with
    | infinity => exact ⟨_, rfl⟩
    | affine x₂ y₂ =>
      by_cases hx : x₁ = x₂
      · by_cases hy : y₁ + y₂ = 0
        · exact ⟨infinity, by simp only [tryAdd, if_pos hx, if_pos hy]⟩
        · simp only [tryAdd, if_pos hx, if_neg hy]
          exact exists_tryDouble _
      · obtain ⟨i, hi⟩ := Fq.exists_inverse (Fq.sub_ne_zero_of_ne hx)
        simp only [tryAdd, if_neg hx, hi]
        exact ⟨_, rfl⟩

theorem exists_ladderStep (P acc : G1) (digit : Bool) : ∃ Q, ladderStep P acc digit = .ok Q := by
  obtain ⟨D, hD⟩ := exists_tryDouble acc
  rw [ladderStep, hD]
  cases digit with
  | false => exact ⟨D, rfl⟩
  | true => exact exists_tryAdd D P

theorem exists_ladder (P : G1) (digits : List Bool) (acc : G1) : ∃ Q, ladder P digits acc = .ok Q := by
  induction digits generalizing acc with
  | nil => exact ⟨acc, rfl⟩
  | cons d ds ih =>
    obtain ⟨Q, hQ⟩ := exists_ladderStep P acc d
    rw [ladder, hQ]
    exact ih Q

theorem exists_tryNsmul (k : Nat) (P : G1) : ∃ Q, tryNsmul k P = .ok Q := by
  unfold tryNsmul
  split
  · exact ⟨_, rfl⟩
  · exact exists_ladder P _ _

theorem exists_inSubgroup? (P : G1) : ∃ b, P.inSubgroup? = .ok b := by
  obtain ⟨Q, hQ⟩ := exists_tryNsmul r P
  rw [inSubgroup?, hQ]
  exact ⟨_, rfl⟩

/-! ## Byte forms -/

theorem exists_encode (P : G1) : ∃ b, P.encode = .ok b := by
  cases P with
  | infinity => exact ⟨_, rfl⟩
  | affine x y =>
    obtain ⟨bx, hx⟩ := Fq.exists_toLittleEndian x
    obtain ⟨by_, hy⟩ := Fq.exists_toLittleEndian y
    simp only [encode, hx, hy]
    exact ⟨_, rfl⟩

theorem exists_verifierForm (P : G1) : ∃ f, P.verifierForm = .ok f := by
  cases P with
  | infinity => exact ⟨_, rfl⟩
  | affine x y =>
    obtain ⟨bx, hx⟩ := Fq.exists_toBigEndian x
    obtain ⟨by_, hy⟩ := Fq.exists_toBigEndian y
    simp only [verifierForm, hx, hy]
    exact ⟨_, rfl⟩

end G1

/-- The subgroup check gives an answer, so a commitment is never refused for its arithmetic. -/
theorem Commitment.decode_ne_arithmetic (b : Bytes) (e : ArithmeticError) :
    Commitment.decode b ≠ .error (.arithmetic e) := by
  unfold decode
  split
  · exact nofun
  · split
    · exact nofun
    · exact nofun
    · rename_i x y _ _
      obtain ⟨inside, h⟩ := G1.exists_inSubgroup? (.affine x y)
      simp only [h]
      split
      · cases inside <;> exact nofun
      · exact nofun

theorem G1.inSubgroup?_generator : generator.inSubgroup? = .ok true := by
  obtain ⟨P, hP⟩ := exists_tryNsmul r generator
  have hinfinity : settle (tryNsmul r generator) = infinity := by decide +kernel
  rw [hP] at hinfinity
  rw [inSubgroup?, hP, show P = infinity from hinfinity]
  rfl

/-- The generator's coordinates are a commitment. -/
theorem Commitment.decode_generator :
    Commitment.decode (1 :: List.replicate 31 0 ++ 2 :: List.replicate 31 0) = .ok G1.generator := by
  have hx : Fq.ofLittleEndian
      (List.take 32 (1 :: List.replicate 31 0 ++ 2 :: List.replicate 31 0 : Bytes)) = .ok 1 := by rfl
  have hy : Fq.ofLittleEndian
      (List.drop 32 (1 :: List.replicate 31 0 ++ 2 :: List.replicate 31 0 : Bytes)) = .ok 2 := by rfl
  have hcurve : (G1.affine 1 2).OnCurve := by decide
  have hinside : (G1.affine 1 2).inSubgroup? = .ok true := G1.inSubgroup?_generator
  rw [decode, if_neg (by decide), hx, hy]
  simp only [if_pos hcurve, hinside]
  rfl

/-! ## Signatures -/

namespace BlobKey

theorem exists_hashPoint (k : BlobKey) (commitment : G1) : ∃ H, k.hashPoint commitment = .ok H := by
  obtain ⟨⟨x, y⟩, h⟩ := commitment.exists_verifierForm
  rw [hashPoint, preimage, h]
  exact ⟨_, rfl⟩

/-- A signature is the encoding of the hash point times the key. -/
theorem sign_eq_ok_iff {k : BlobKey} {commitment : G1} {key : Fr} {b : Bytes} :
    k.sign commitment key = .ok b ↔
      ∃ H S, k.hashPoint commitment = .ok H ∧ H.tryMul key = .ok S ∧ S.encode = .ok b := by
  rw [sign, signaturePoint]
  cases k.hashPoint commitment with
  | error e => simp
  | ok H =>
    cases hS : H.tryMul key with
    | error e => simp [hS]
    | ok S => simp [hS]

/-- Every key signs every blob. -/
theorem exists_sign (k : BlobKey) (commitment : G1) (key : Fr) : ∃ b, k.sign commitment key = .ok b := by
  obtain ⟨H, hH⟩ := k.exists_hashPoint commitment
  obtain ⟨S, hS⟩ : ∃ S, H.tryMul key = .ok S := G1.exists_tryNsmul key.val H
  rw [sign, signaturePoint, hH]
  simp only [hS]
  exact S.exists_encode

end BlobKey

end BlobSigner
