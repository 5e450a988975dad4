import BlobSigner.Proofs.Bn254.Commitment
import BlobSigner.Proofs.Bn254.Uncompressed
/-!
# Commitments among the uncompressed points

A commitment is an uncompressed point without marks: `q < 2 ^ 254`, so both readers see the same
coordinates where both marks are clear, and no canonical ordinate has one set
(`decode_eq_ok_iff_unmarked`). A point is written with a mark if its ordinate is the larger of two
opposite ones, so of two opposite points just one is written as a commitment (`readers_agree`).
-/
namespace BlobSigner

namespace G1

variable {b e : Bytes} {P : G1} {x y : Fq}

/-- Neither mark is set. -/
def Unmarked (b : Bytes) : Prop := lastBit 6 b = false ∧ lastBit 7 b = false

theorem onCurve_neg (h : P.OnCurve) : (-P).OnCurve := by
  obtain ⟨p, rfl⟩ := exists_ofPoint h
  rw [neg_ofPoint]
  exact onCurve_ofPoint (-p)

theorem unmark_eq_self_iff (d : UInt8) :
    d &&& 0x3f = d ↔ d.toNat.testBit 6 = false ∧ d.toNat.testBit 7 = false := by
  induction d using forall_byte with
  | h n =>
    revert n
    decide +kernel

theorem unmarked_append_singleton_iff {p : Bytes} {d : UInt8} :
    Unmarked (p ++ [d]) ↔ d &&& 0x3f = d := by
  rw [Unmarked, lastBit_append_singleton, lastBit_append_singleton, unmark_eq_self_iff]

/-- The digits of an ordinate leave room for both marks. -/
theorem unmark_topByte (y : Fq) : y.topByte &&& 0x3f = y.topByte := by
  rw [← UInt8.toNat_inj, toNat_unmark]
  exact Nat.mod_eq_of_lt y.toNat_topByte_lt

/-- Without marks a point is read from its coordinates alone. -/
theorem decode_eq_affine_iff_of_unmarked (hcurve : (affine x y).OnCurve) :
    decode b = .ok (affine x y) ∧ Unmarked b ↔
      b = Radix.littleEndian 32 x.val ++ Radix.littleEndian 32 y.val := by
  have hp : (Radix.littleEndian 32 x.val ++ Radix.littleEndian 31 y.val).length = 63 := by simp
  rw [y.littleEndian_eq_append, ← List.append_assoc]
  constructor
  · rintro ⟨hread, hclear⟩
    obtain ⟨p, d, rfl, hp'⟩ := exists_last (length_of_decode hread)
    rw [unmarked_append_singleton_iff] at hclear
    obtain ⟨rfl, hd⟩ := (decode_append_eq_affine_iff hp' hcurve).1 hread
    rw [← (Fq.unmark_eq_topByte_iff.2 hd).2, hclear]
  · rintro rfl
    have hclear := unmark_topByte y
    have hbits := (unmark_eq_self_iff y.topByte).1 hclear
    refine ⟨(decode_append_eq_affine_iff hp hcurve).2 ⟨rfl, ?_⟩, ?_⟩
    · exact Fq.unmark_eq_topByte_iff.1 ⟨hbits.1, hclear⟩
    · exact unmarked_append_singleton_iff.2 hclear

/-- What is written of a point without the mark of infinity has no mark unless its ordinate is the
larger one. -/
theorem unmarked_of_encode_iff (he : (affine x y).encode = .ok e) : Unmarked e ↔ ¬ y.IsLarger := by
  have hinfinity : lastBit 6 e = false := by
    rw [← Bool.not_eq_true, lastBit_six_of_encode he]
    exact G1.noConfusion
  have hlarger : lastBit 7 e = true ↔ y.IsLarger := by
    rw [lastBit_seven_of_encode he, Fq.isLarger_iff]
    constructor
    · rintro ⟨x', y', heq, h⟩
      cases heq
      exact h
    · intro h
      exact ⟨x, y, rfl, h⟩
  rw [Unmarked, ← Bool.not_eq_true (lastBit 7 e), hlarger]
  exact and_iff_right hinfinity

end G1

namespace Commitment

variable {b e : Bytes} {P : G1} {x y : Fq}

/-- **A commitment is an uncompressed point without marks.** -/
theorem decode_eq_ok_iff_unmarked : decode b = .ok P ↔ G1.decode b = .ok P ∧ G1.Unmarked b := by
  constructor
  · intro h
    obtain ⟨x, y, rfl, hcurve, hb⟩ := decode_eq_ok_iff.1 h
    exact (G1.decode_eq_affine_iff_of_unmarked hcurve).2 hb
  · rintro ⟨hread, hclear⟩
    have hcurve := G1.onCurve_of_decode hread
    cases P with
    | infinity =>
      -- infinity is read from a mark only
      have hmark := (G1.decode_eq_infinity_iff.1 hread).2
      rw [hclear.1] at hmark
      cases hmark
    | affine x y =>
      have hb := (G1.decode_eq_affine_iff_of_unmarked hcurve).1 ⟨hread, hclear⟩
      exact decode_eq_ok_iff.2 ⟨x, y, rfl, hcurve, hb⟩

/-- The bytes of a point are a commitment unless its ordinate is the larger one. -/
theorem exists_decode_of_encode_iff (hcurve : (G1.affine x y).OnCurve)
    (he : (G1.affine x y).encode = .ok e) : (∃ P, decode e = .ok P) ↔ ¬ y.IsLarger := by
  have hread := G1.decode_of_encode hcurve he
  rw [← G1.unmarked_of_encode_iff he]
  constructor
  · rintro ⟨P, hP⟩
    exact (decode_eq_ok_iff_unmarked.1 hP).2
  · intro hclear
    exact ⟨_, decode_eq_ok_iff_unmarked.2 ⟨hread, hclear⟩⟩

/-- **The two readers of points agree where both read.** What is read as a commitment is read as the
same uncompressed point; an uncompressed point is read as a commitment, and as the same one, exactly
if both marks of its bytes are clear. Of two opposite points on the curve just one is written as a
commitment, namely the one whose ordinate is not the larger. -/
theorem readers_agree :
    (∀ b P, decode b = .ok P → G1.decode b = .ok P) ∧
    (∀ b P, G1.decode b = .ok P →
      ((∃ Q, decode b = .ok Q) ↔ G1.lastBit 6 b = false ∧ G1.lastBit 7 b = false) ∧
      ∀ Q, decode b = .ok Q → Q = P) ∧
    ∀ x y, (G1.affine x y).OnCurve → ∃ e e',
      (G1.affine x y).encode = .ok e ∧ (-G1.affine x y).encode = .ok e' ∧
      ((∃ P, decode e = .ok P) ↔ ¬ ∃ P, decode e' = .ok P) ∧
      ((∃ P, decode e = .ok P) ↔ ¬ y.IsLarger) ∧ ((∃ P, decode e' = .ok P) ↔ ¬ (-y).IsLarger) := by
  refine ⟨fun b P h => (decode_eq_ok_iff_unmarked.1 h).1, fun b P hP => ⟨⟨?_, ?_⟩, ?_⟩, ?_⟩
  · rintro ⟨Q, hQ⟩
    exact (decode_eq_ok_iff_unmarked.1 hQ).2
  · intro hclear
    exact ⟨P, decode_eq_ok_iff_unmarked.2 ⟨hP, hclear⟩⟩
  · intro Q hQ
    exact Except.ok.inj ((decode_eq_ok_iff_unmarked.1 hQ).1.symm.trans hP)
  · intro x y hcurve
    obtain ⟨e, he⟩ := (G1.affine x y).exists_encode
    obtain ⟨e', he'⟩ := (-G1.affine x y).exists_encode
    have hy : y ≠ 0 := G1.y_ne_zero (G1.onCurve_affine_iff.1 hcurve)
    have hread := exists_decode_of_encode_iff hcurve he
    have hread' : (∃ P, decode e' = .ok P) ↔ ¬ (-y).IsLarger :=
      exists_decode_of_encode_iff (G1.onCurve_neg hcurve) he'
    refine ⟨e, e', he, he', ?_, hread, hread'⟩
    rw [hread, hread', Fq.isLarger_neg_iff hy, not_not]

/-- The generator is written as a commitment, so its opposite is not. -/
theorem readers_agree_generator :
    let e : Bytes := 1 :: List.replicate 31 0 ++ 2 :: List.replicate 31 0
    (G1.affine 1 2).OnCurve ∧ (G1.affine 1 2).encode = .ok e ∧
      G1.decode e = .ok (.affine 1 2) ∧ decode e = .ok (.affine 1 2) ∧
      ∃ e', (-G1.affine 1 2).encode = .ok e' ∧ G1.decode e' = .ok (-G1.affine 1 2) ∧
        ¬ ∃ P, decode e' = .ok P := by
  intro e
  have hcurve : (G1.affine 1 2).OnCurve := by decide
  have hwritten : (G1.affine 1 2).encode = .ok e := by decide +kernel
  obtain ⟨-, hback, hopposite⟩ := readers_agree
  obtain ⟨e₁, e', he₁, he', hone, -⟩ := hopposite 1 2 hcurve
  cases hwritten.symm.trans he₁
  have hread : G1.decode e = .ok (.affine 1 2) := G1.decode_of_encode hcurve hwritten
  obtain ⟨hclear, hsame⟩ := hback e _ hread
  obtain ⟨P, hP⟩ := hclear.2 (by decide)
  refine ⟨hcurve, hwritten, hread, hsame P hP ▸ hP, e', he', ?_, hone.1 ⟨P, hP⟩⟩
  exact G1.decode_of_encode (G1.onCurve_neg hcurve) he'

end Commitment

end BlobSigner
