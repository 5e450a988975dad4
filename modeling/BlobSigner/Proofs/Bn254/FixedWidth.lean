import BlobSigner.Proofs.Bn254.Encoding
/-!
# Numbers of thirty-two bytes

An integer has thirty-two digits if it is not negative and below `2 ^ 256`, and every thirty-two bytes
are the digits of one (`written_or_fails`, `bigEndian32_ofBigEndian`). Bytes that are fewer come back
with zeros in front of them. So the canonical bytes of coordinates and of scalars are those that are
written for the numbers below the modulus, and reading and writing them undo each other:
`fixedWidth_exact`.
-/
namespace BlobSigner

namespace Radix

variable {v : Int} {d : Bytes32} {b : Bytes}

/-! ## Integers -/

/-- An integer is written as digits that spell it, or what is wrong with it is reported. -/
theorem written_or_fails (v : Int) :
    (0 ≤ v ∧ v < 2 ^ 256) ∧ (∃ d, bigEndian32 v = .ok d ∧ (ofBigEndian d.toList : Int) = v) ∨
      v < 0 ∧ bigEndian32 v = .error .negative ∨
      2 ^ 256 ≤ v ∧ bigEndian32 v = .error .tooWide := by
  by_cases hneg : v < 0
  · exact Or.inr (Or.inl ⟨hneg, bigEndian32_of_neg hneg⟩)
  · obtain ⟨n, rfl⟩ := Int.eq_ofNat_of_zero_le (Int.not_lt.1 hneg)
    by_cases hn : n < 1 <<< 256
    · have hfits : n < 2 ^ 256 := hn
      have hspelt : ofBigEndian (bigEndian 32 n) = n :=
        (ofBigEndian_bigEndian 32 n).trans (Nat.mod_eq_of_lt hn)
      exact Or.inl ⟨⟨n.cast_nonneg, by exact_mod_cast hfits⟩, _, bigEndian32_of_lt hn,
        congrArg Nat.cast hspelt⟩
    · have hwide : 2 ^ 256 ≤ n := Nat.not_lt.1 hn
      exact Or.inr (Or.inr ⟨by exact_mod_cast hwide, bigEndian32_of_le (Nat.not_lt.1 hn)⟩)

theorem exists_bigEndian32_iff : (∃ d, bigEndian32 v = .ok d) ↔ 0 ≤ v ∧ v < 2 ^ 256 := by
  rcases written_or_fails v with ⟨hfits, d, hd, -⟩ | ⟨hneg, hd⟩ | ⟨hwide, hd⟩
  · exact iff_of_true ⟨d, hd⟩ hfits
  · exact iff_of_false (by simp [hd]) fun h => Int.not_lt.2 h.1 hneg
  · exact iff_of_false (by simp [hd]) fun h => Int.not_lt.2 hwide h.2

theorem ofBigEndian_of_bigEndian32 (h : bigEndian32 v = .ok d) : (ofBigEndian d.toList : Int) = v := by
  rcases written_or_fails v with ⟨-, d', hd, hspelt⟩ | ⟨-, hd⟩ | ⟨-, hd⟩
  · cases h.symm.trans hd
    exact hspelt
  · cases h.symm.trans hd
  · cases h.symm.trans hd

theorem bigEndian32_eq_negative_iff : bigEndian32 v = .error .negative ↔ v < 0 := by
  rcases written_or_fails v with ⟨hfits, d, hd, -⟩ | ⟨hneg, hd⟩ | ⟨hwide, hd⟩
  · exact iff_of_false (by simp [hd]) (Int.not_lt.2 hfits.1)
  · exact iff_of_true hd hneg
  · exact iff_of_false (by simp [hd]) (Int.not_lt.2 (Int.le_trans (by decide) hwide))

theorem bigEndian32_eq_tooWide_iff : bigEndian32 v = .error .tooWide ↔ 2 ^ 256 ≤ v := by
  rcases written_or_fails v with ⟨hfits, d, hd, -⟩ | ⟨hneg, hd⟩ | ⟨hwide, hd⟩
  · exact iff_of_false (by simp [hd]) (Int.not_le.2 hfits.2)
  · exact iff_of_false (by simp [hd]) (Int.not_le.2 (Int.lt_trans hneg (by decide)))
  · exact iff_of_true hd hwide

/-! ## Bytes -/

/-- What is written for the number of some bytes is these bytes, with the zeros that they lack. -/
theorem bigEndian32_ofBigEndian (h : b.length ≤ 32) :
    ∃ d, bigEndian32 (ofBigEndian b) = .ok d ∧ d.toList = List.replicate (32 - b.length) 0 ++ b := by
  have hfits : ofBigEndian b < 256 ^ 32 :=
    Nat.lt_of_lt_of_le (ofBigEndian_lt b) (Nat.pow_le_pow_right (by decide) h)
  refine ⟨_, bigEndian32_of_lt hfits, ?_⟩
  symm
  rw [eq_bigEndian_iff (by simp [h]) hfits, ofBigEndian_replicate_append]

end Radix

/-! ## Canonical bytes -/

/-- If what is read as a residue is what is written for it, what is read at all is what is written for
the numbers below the modulus. -/
theorem Residue.exists_read_iff {m : Nat} {ε : Type} {read : Bytes → Except ε (Residue m)}
    {write : Int → Except ArithmeticError Bytes32} {b : Bytes}
    (h : ∀ a, read b = .ok a ↔ ∃ d, write a.val = .ok d ∧ d.toList = b) :
    (∃ a, read b = .ok a) ↔ ∃ n < m, ∃ d, write n = .ok d ∧ d.toList = b := by
  constructor
  · rintro ⟨a, ha⟩
    exact ⟨a.val, a.val_lt, (h a).1 ha⟩
  · rintro ⟨n, hn, hd⟩
    exact ⟨⟨n, hn⟩, (h ⟨n, hn⟩).2 hd⟩

theorem Fq.ofLittleEndian_eq_ok_iff_written {b : Bytes} {a : Fq} :
    ofLittleEndian b = .ok a ↔ ∃ d, a.toLittleEndian = .ok d ∧ d.toList = b := by
  rw [ofLittleEndian_eq_ok_iff, toLittleEndian_eq]
  simp [eq_comm]

theorem Fr.ofBigEndian_eq_ok_iff_written {b : Bytes} {k : Fr} :
    ofBigEndian b = .ok k ↔ ∃ d, k.toBigEndian = .ok d ∧ d.toList = b := by
  rw [ofBigEndian_eq_ok_iff, toBigEndian_eq]
  constructor
  · rintro ⟨hlength, hspelt⟩
    exact ⟨_, rfl, ((Radix.eq_bigEndian_iff hlength k.val_lt_digits).2 hspelt).symm⟩
  · rintro ⟨d, hd, rfl⟩
    have hlength := d.length_toList
    cases hd
    exact ⟨hlength, (Radix.eq_bigEndian_iff hlength k.val_lt_digits).1 rfl⟩

/-! ## Both ways -/

namespace Radix

/-- **Numbers and their thirty-two bytes determine each other.** An integer is written if it is not
negative and below `2 ^ 256`, as bytes that spell it, and otherwise what is wrong with it is reported.
The digits that are moved to the end of the thirty-two bytes spell the number and have no leading zero;
however many they are, bytes that are read come back with zeros in front of them. The other byte order
is the same from the other end. What is read as a coordinate or as a scalar is exactly what is written
for the numbers below the modulus, all of them are written, and reading and writing are inverse to each
other. -/
theorem fixedWidth_exact :
    (∀ v : Int,
      ((∃ d, bigEndian32 v = .ok d) ↔ 0 ≤ v ∧ v < 2 ^ 256) ∧
      (∀ d, bigEndian32 v = .ok d → (ofBigEndian d.toList : Int) = v) ∧
      (bigEndian32 v = .error .negative ↔ v < 0) ∧
      (bigEndian32 v = .error .tooWide ↔ 2 ^ 256 ≤ v) ∧
      littleEndian32 v = (bigEndian32 v).map .reverse) ∧
    (∀ n, ofBigEndian (significant n) = n ∧ (significant n).head? ≠ some 0) ∧
    (∀ b : Bytes,
      (b.length ≤ 32 → ∃ d, bigEndian32 (ofBigEndian b) = .ok d ∧
        d.toList = List.replicate (32 - b.length) 0 ++ b) ∧
      ofLittleEndian b = ofBigEndian b.reverse) ∧
    (∀ b : Bytes,
      ((∃ a, Fq.ofLittleEndian b = .ok a) ↔
        ∃ n < q, ∃ d, littleEndian32 n = .ok d ∧ d.toList = b) ∧
      ∀ a : Fq, Fq.ofLittleEndian b = .ok a ↔ ∃ d, a.toLittleEndian = .ok d ∧ d.toList = b) ∧
    (∀ b : Bytes,
      ((∃ k, Fr.ofBigEndian b = .ok k) ↔ ∃ n < r, ∃ d, bigEndian32 n = .ok d ∧ d.toList = b) ∧
      ∀ k : Fr, Fr.ofBigEndian b = .ok k ↔ ∃ d, k.toBigEndian = .ok d ∧ d.toList = b) ∧
    (∀ a : Fq, ∃ d, a.toLittleEndian = .ok d) ∧
    ∀ k : Fr, ∃ d, k.toBigEndian = .ok d := by
  refine ⟨fun v => ?_, fun n => ?_, fun b => ?_, fun b => ?_, fun b => ?_, fun a => ?_, fun k => ?_⟩
  · exact ⟨exists_bigEndian32_iff, fun d => ofBigEndian_of_bigEndian32, bigEndian32_eq_negative_iff,
      bigEndian32_eq_tooWide_iff, rfl⟩
  · exact ⟨ofBigEndian_significant n, head?_significant n⟩
  · refine ⟨bigEndian32_ofBigEndian, ?_⟩
    rw [ofBigEndian_eq_reverse, List.reverse_reverse]
  · exact ⟨Residue.exists_read_iff fun a => Fq.ofLittleEndian_eq_ok_iff_written,
      fun a => Fq.ofLittleEndian_eq_ok_iff_written⟩
  · exact ⟨Residue.exists_read_iff fun k => Fr.ofBigEndian_eq_ok_iff_written,
      fun k => Fr.ofBigEndian_eq_ok_iff_written⟩
  · exact ⟨_, a.toLittleEndian_eq⟩
  · exact ⟨_, k.toBigEndian_eq⟩

/-- Three bytes with a zero among them, the integers around those that are written, and the order, which
is written and not read. -/
theorem fixedWidth_exact_innerZero :
    let b : Bytes := [1, 0, 2]
    b.length ≤ 32 ∧ ofBigEndian b = 65538 ∧
      (∃ d, bigEndian32 65538 = .ok d ∧ d.toList = List.replicate 29 0 ++ b ∧
        (ofBigEndian d.toList : Int) = 65538) ∧
      bigEndian32 (-1) = .error .negative ∧ bigEndian32 (2 ^ 256) = .error .tooWide ∧
      (∃ d, bigEndian32 (2 ^ 256 - 1) = .ok d) ∧
      ∃ d, bigEndian32 r = .ok d ∧ ¬ ∃ k, Fr.ofBigEndian d.toList = .ok k := by
  intro b
  obtain ⟨hintegers, -, hbytes, -, hscalars, -, -⟩ := fixedWidth_exact
  have hlength : b.length ≤ 32 := by decide
  obtain ⟨d, hd, hpadded⟩ := (hbytes b).1 hlength
  obtain ⟨e, he⟩ := (hintegers r).1.2 (by decide)
  refine ⟨hlength, rfl, ⟨d, hd, hpadded, (hintegers 65538).2.1 d hd⟩, ?_, ?_, ?_, e, he, ?_⟩
  · exact (hintegers (-1)).2.2.1.2 (by decide)
  · exact (hintegers (2 ^ 256)).2.2.2.1.2 (by decide)
  · exact (hintegers (2 ^ 256 - 1)).1.2 (by decide)
  · intro hread
    obtain ⟨n, hn, e', he', hbytes'⟩ := (hscalars e.toList).1.1 hread
    -- The order is the number of its own bytes only.
    have horder := (hintegers r).2.1 e he
    have hsame := (hintegers n).2.1 e' he'
    rw [hbytes', horder] at hsame
    exact absurd (Int.natCast_inj.1 hsame) (Nat.ne_of_gt hn)

end Radix

end BlobSigner
