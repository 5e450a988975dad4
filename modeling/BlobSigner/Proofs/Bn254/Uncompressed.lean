import BlobSigner.Proofs.Bn254.Encoding
import BlobSigner.Proofs.Bn254.Order
/-!
# The uncompressed form of points

The most significant byte of an ordinate is below 64, so its two top bits are free for marks: bit 7
for the larger of two opposite ordinates, bit 6 for infinity. Reading takes the marks off, looks at
the second one and never at the first. So a point is read from what it is written as
(`decode_of_encode`), and from one other string, with the first mark turned over
(`decode_eq_affine_iff`); infinity is read from every string that has the second
(`decode_eq_infinity_iff`).
-/
namespace BlobSigner

namespace G1

/-! ## The last byte -/

/-- Bit `i` of the last byte. -/
def lastBit (i : Nat) (b : Bytes) : Bool := (b.getLastD 0).toNat.testBit i

/-- The bytes with bit 7 of the last one flipped. -/
def flipLarger (b : Bytes) : Bytes := b.modify (b.length - 1) (· ^^^ largerFlag)

theorem toNat_unmark (d : UInt8) : (d &&& 0x3f).toNat = d.toNat % 64 := by
  induction d using forall_byte with
  | h n =>
    revert n
    decide +kernel

theorem toNat_mark {d : UInt8} : d.toNat < 128 → (d ||| largerFlag).toNat = d.toNat + 128 := by
  induction d using forall_byte with
  | h n =>
    revert n
    decide +kernel

theorem toNat_flip (d : UInt8) : (d ^^^ largerFlag).toNat = (d.toNat + 128) % 256 := by
  induction d using forall_byte with
  | h n =>
    revert n
    decide +kernel

theorem and_infinityFlag_ne_zero_iff (d : UInt8) :
    d &&& infinityFlag ≠ 0 ↔ d.toNat.testBit 6 = true := by
  induction d using forall_byte with
  | h n =>
    revert n
    decide +kernel

theorem exists_last {c : Bytes} {n : Nat} (h : c.length = n + 1) :
    ∃ p d, c = p ++ [d] ∧ p.length = n := by
  have hne : c ≠ [] := by
    rintro rfl
    cases h
  refine ⟨c.dropLast, c.getLast hne, (List.dropLast_append_getLast hne).symm, ?_⟩
  simp [h]

@[simp] theorem lastBit_append_singleton (i : Nat) (p : Bytes) (d : UInt8) :
    lastBit i (p ++ [d]) = d.toNat.testBit i := by
  simp [lastBit]

theorem modify_last (p : Bytes) (d : UInt8) (f : UInt8 → UInt8) :
    (p ++ [d]).modify ((p ++ [d]).length - 1) f = p ++ [f d] := by
  have hlast : (p ++ [d]).length - 1 = p.length := by simp
  rw [hlast, Radix.modify_append_cons]

/-- Without its marks the last byte counts for what is below `2 ^ 254`. -/
theorem ofLittleEndian_unmarkLast {c : Bytes} (h : c.length = 32) :
    Radix.ofLittleEndian (unmarkLast c) = Radix.ofLittleEndian c % 2 ^ 254 := by
  obtain ⟨p, d, rfl, hp⟩ := exists_last h
  have hlow : Radix.ofLittleEndian p < 2 ^ 248 := by
    have hlt := Radix.ofLittleEndian_lt p
    rw [hp] at hlt
    exact hlt
  have hweight : (256 : Nat) ^ 31 = 2 ^ 248 := by decide
  rw [unmarkLast, modify_last, Radix.ofLittleEndian_append, Radix.ofLittleEndian_append, hp, hweight]
  simp only [Radix.ofLittleEndian, toNat_unmark]
  omega

end G1

/-! ## An ordinate with its marks -/

namespace Fq

/-- The most significant byte of a coordinate. -/
def topByte (a : Fq) : UInt8 := UInt8.ofNat (a.val / 256 ^ 31 % 256)

theorem littleEndian_eq_append (a : Fq) :
    Radix.littleEndian 32 a.val = Radix.littleEndian 31 a.val ++ [a.topByte] :=
  Radix.littleEndian_succ_append 31 a.val

/-- It leaves the two top bits free, as `q < 2 ^ 254`. -/
theorem toNat_topByte_lt (a : Fq) : a.topByte.toNat < 64 := by
  have hq : q / 256 ^ 31 < 64 := by decide
  have hle : a.val / 256 ^ 31 ≤ q / 256 ^ 31 := Nat.div_le_div_right a.val_lt.le
  rw [topByte, Radix.toNat_ofNat_mod]
  omega

/-- The last byte of a point with this ordinate. -/
def lastByte (y : Fq) : UInt8 := if y.IsLarger then y.topByte ||| G1.largerFlag else y.topByte

theorem toNat_lastByte (y : Fq) :
    y.lastByte.toNat = y.topByte.toNat + if y.IsLarger then 128 else 0 := by
  have htop := y.toNat_topByte_lt
  unfold lastByte
  split
  · exact G1.toNat_mark (by omega)
  · rfl

theorem isLarger_iff {y : Fq} : y.IsLarger ↔ q - y.val < y.val := by
  have hy := y.val_lt
  rw [IsLarger, Residue.neg_val]
  split <;> omega

/-- Of two opposite ordinates exactly one is the larger, as `q` is odd. -/
theorem isLarger_neg_iff {y : Fq} (h : y ≠ 0) : (-y).IsLarger ↔ ¬ y.IsLarger := by
  have h0 := Residue.val_ne_zero h
  have hy := y.val_lt
  have hodd : q % 2 = 1 := by decide
  have hneg : (-y).val = q - y.val := (Residue.neg_val y).trans (if_neg h0)
  rw [isLarger_iff, isLarger_iff, hneg]
  omega

theorem testBit_six_lastByte (y : Fq) : y.lastByte.toNat.testBit 6 = false := by
  have htop := y.toNat_topByte_lt
  rw [Nat.testBit_eq_decide_div_mod_eq, decide_eq_false_iff_not, toNat_lastByte]
  split <;> omega

theorem testBit_seven_lastByte (y : Fq) : y.lastByte.toNat.testBit 7 = true ↔ y.IsLarger := by
  have htop := y.toNat_topByte_lt
  rw [Nat.testBit_eq_decide_div_mod_eq, decide_eq_true_iff, toNat_lastByte]
  by_cases h : y.IsLarger
  · rw [if_pos h]
    simp only [h, iff_true]
    omega
  · rw [if_neg h]
    simp only [h, iff_false]
    omega

/-- Two bytes stand for the most significant byte of an ordinate: with the mark and without. -/
theorem unmark_eq_topByte_iff {y : Fq} {d : UInt8} :
    d.toNat.testBit 6 = false ∧ d &&& 0x3f = y.topByte ↔
      d = y.lastByte ∨ d = y.lastByte ^^^ G1.largerFlag := by
  have htop := y.toNat_topByte_lt
  have hd := d.toNat_lt
  rw [Nat.testBit_eq_decide_div_mod_eq, decide_eq_false_iff_not]
  simp only [← UInt8.toNat_inj, G1.toNat_unmark, G1.toNat_flip, toNat_lastByte]
  -- four bytes agree with the top byte modulo 64, and bit 6 rules two of them out
  split <;> omega

end Fq

namespace G1

variable {b e : Bytes} {P : G1} {x y : Fq}

/-! ## Writing -/

theorem encode_affine (x y : Fq) :
    (affine x y).encode =
      .ok (Radix.littleEndian 32 x.val ++ Radix.littleEndian 31 y.val ++ [y.lastByte]) := by
  rw [encode, Fq.toLittleEndian_eq, Fq.toLittleEndian_eq]
  simp only [y.littleEndian_eq_append, ← List.append_assoc]
  rw [Fq.lastByte]
  split
  · rw [markLast, modify_last]
  · rfl

theorem encode_infinity : infinity.encode = .ok (List.replicate 63 0 ++ [infinityFlag]) := by
  rw [encode, List.replicate_succ' (n := 63), markLast, modify_last]
  rfl

/-- The mark of infinity is on infinity only. -/
theorem lastBit_six_of_encode (he : P.encode = .ok e) : lastBit 6 e = true ↔ P = infinity := by
  cases P with
  | infinity =>
    rw [encode_infinity, Except.ok.injEq] at he
    subst he
    rw [lastBit_append_singleton]
    exact iff_of_true (by decide) rfl
  | affine x y =>
    rw [encode_affine, Except.ok.injEq] at he
    subst he
    rw [lastBit_append_singleton, y.testBit_six_lastByte]
    simp

/-- The other mark tells whether the ordinate is the larger one. -/
theorem lastBit_seven_of_encode (he : P.encode = .ok e) :
    lastBit 7 e = true ↔ ∃ x y, P = affine x y ∧ q - y.val < y.val := by
  cases P with
  | infinity =>
    rw [encode_infinity, Except.ok.injEq] at he
    subst he
    rw [lastBit_append_singleton]
    constructor
    · intro h
      exact absurd h (by decide)
    · rintro ⟨x, y, heq, -⟩
      cases heq
  | affine x y =>
    rw [encode_affine, Except.ok.injEq] at he
    subst he
    rw [lastBit_append_singleton, y.testBit_seven_lastByte, Fq.isLarger_iff]
    constructor
    · intro h
      exact ⟨x, y, rfl, h⟩
    · rintro ⟨x', y', heq, h⟩
      cases heq
      exact h

/-- Of two opposite points one has it: no point on the curve has the ordinate zero. -/
theorem lastBit_seven_neg {e' : Bytes} (hP : P.OnCurve) (hne : P ≠ infinity)
    (he : P.encode = .ok e) (he' : (-P).encode = .ok e') : lastBit 7 e' = !lastBit 7 e := by
  cases P with
  | infinity => exact absurd rfl hne
  | affine x y =>
    have hy := y_ne_zero (onCurve_affine_iff.1 hP)
    have hneg : -affine x y = affine x (-y) := rfl
    rw [encode_affine, Except.ok.injEq] at he
    rw [hneg, encode_affine, Except.ok.injEq] at he'
    subst he he'
    rw [lastBit_append_singleton, lastBit_append_singleton, Bool.eq_not_iff, Ne, Bool.eq_iff_iff,
      Fq.testBit_seven_lastByte, Fq.testBit_seven_lastByte, Fq.isLarger_neg_iff hy]
    exact not_iff_self

/-! ## Reading -/

theorem length_of_decode (h : decode b = .ok P) : b.length = 64 := by
  by_contra hlen
  rw [decode, if_pos hlen] at h
  cases h

theorem decode_of_marked (hlen : b.length = 64) (h : lastBit 6 b = true) :
    decode b = .ok infinity := by
  have hflag := (and_infinityFlag_ne_zero_iff _).2 h
  rw [decode, if_neg (not_not.2 hlen), if_pos hflag]

/-- Without the mark of infinity two coordinates are read, the second one unmarked. -/
theorem decode_eq_ok_iff_of_unmarked (hlen : b.length = 64) (h : lastBit 6 b = false) :
    decode b = .ok P ↔ ∃ x y : Fq, P = affine x y ∧ b.take 32 = Radix.littleEndian 32 x.val ∧
      unmarkLast (b.drop 32) = Radix.littleEndian 32 y.val ∧ (affine x y).OnCurve := by
  have hflag : ¬ (b.getLastD 0) &&& infinityFlag ≠ 0 := by
    rw [and_infinityFlag_ne_zero_iff]
    exact Bool.not_eq_true _ ▸ h
  rw [decode, if_neg (not_not.2 hlen), if_neg hflag]
  constructor
  · intro h
    split at h
    · cases h
    · rename_i x hx
      split at h
      · cases h
      · rename_i y hy
        by_cases hcurve : (affine x y).OnCurve
        · simp only [ofAffine, if_pos hcurve] at h
          cases h
          exact ⟨x, y, rfl, Fq.ofLittleEndian_eq_ok_iff.1 hx, Fq.ofLittleEndian_eq_ok_iff.1 hy, hcurve⟩
        · simp only [ofAffine, if_neg hcurve] at h
          cases h
  · rintro ⟨x, y, rfl, hx, hy, hcurve⟩
    rw [Fq.ofLittleEndian_eq_ok_iff.2 hx]
    simp only [Fq.ofLittleEndian_eq_ok_iff.2 hy, ofAffine, if_pos hcurve]
    rfl

theorem decode_eq_infinity_iff : decode b = .ok infinity ↔ b.length = 64 ∧ lastBit 6 b = true := by
  constructor
  · intro h
    have hlen := length_of_decode h
    refine ⟨hlen, ?_⟩
    by_contra hmark
    obtain ⟨x, y, heq, -⟩ :=
      (decode_eq_ok_iff_of_unmarked hlen (Bool.eq_false_iff.2 hmark)).1 h
    cases heq
  · rintro ⟨hlen, hmark⟩
    exact decode_of_marked hlen hmark

theorem onCurve_of_decode (h : decode b = .ok P) : P.OnCurve := by
  have hlen := length_of_decode h
  cases hmark : lastBit 6 b with
  | true =>
    rw [decode_of_marked hlen hmark] at h
    cases h
    trivial
  | false =>
    obtain ⟨x, y, rfl, -, -, hcurve⟩ := (decode_eq_ok_iff_of_unmarked hlen hmark).1 h
    exact hcurve

/-- What can be read without the mark of infinity, in numbers. -/
theorem exists_decode_iff_of_unmarked (hlen : b.length = 64) (h : lastBit 6 b = false) :
    let m := Radix.ofLittleEndian (b.take 32)
    let n := Radix.ofLittleEndian (b.drop 32) % 2 ^ 254
    (∃ P, decode b = .ok P) ↔ m < q ∧ n < q ∧ n ^ 2 ≡ m ^ 3 + 3 [MOD q] := by
  intro m n
  have hx : (b.take 32).length = 32 := by simp [hlen]
  have hy : (unmarkLast (b.drop 32)).length = 32 := by simp [unmarkLast, hlen]
  have hn : Radix.ofLittleEndian (unmarkLast (b.drop 32)) = n :=
    ofLittleEndian_unmarkLast (by simp [hlen])
  constructor
  · rintro ⟨P, hP⟩
    obtain ⟨x, y, -, hxb, hyb, hcurve⟩ := (decode_eq_ok_iff_of_unmarked hlen h).1 hP
    rw [Radix.eq_littleEndian_iff hx x.val_lt_digits] at hxb
    rw [Radix.eq_littleEndian_iff hy y.val_lt_digits, hn] at hyb
    rw [onCurve_affine_iff_modEq, ← hxb, ← hyb] at hcurve
    exact ⟨hxb.trans_lt x.val_lt, hyb.trans_lt y.val_lt, hcurve⟩
  · rintro ⟨hm, hnq, hcurve⟩
    let x : Fq := ⟨m, hm⟩
    let y : Fq := ⟨n, hnq⟩
    have hxb := (Radix.eq_littleEndian_iff hx x.val_lt_digits).2 rfl
    have hyb := (Radix.eq_littleEndian_iff hy y.val_lt_digits).2 hn
    exact ⟨_, (decode_eq_ok_iff_of_unmarked hlen h).2
      ⟨x, y, rfl, hxb, hyb, onCurve_affine_iff_modEq.2 hcurve⟩⟩

theorem decode_append_eq_affine_iff {p : Bytes} {d : UInt8} (hp : p.length = 63)
    (hcurve : (affine x y).OnCurve) :
    decode (p ++ [d]) = .ok (affine x y) ↔
      p = Radix.littleEndian 32 x.val ++ Radix.littleEndian 31 y.val ∧
        (d = y.lastByte ∨ d = y.lastByte ^^^ largerFlag) := by
  have hlen : (p ++ [d]).length = 64 := by simp [hp]
  have htake : (p ++ [d]).take 32 = p.take 32 := List.take_append_of_le_length (by omega)
  have hdrop : (p ++ [d]).drop 32 = p.drop 32 ++ [d] := List.drop_append_of_le_length (by omega)
  rw [← Fq.unmark_eq_topByte_iff]
  constructor
  · intro h
    have hmark : lastBit 6 (p ++ [d]) = false := by
      rw [← Bool.not_eq_true]
      intro hmark
      rw [decode_of_marked hlen hmark] at h
      cases h
    obtain ⟨x', y', heq, hx, hy, -⟩ := (decode_eq_ok_iff_of_unmarked hlen hmark).1 h
    cases heq
    rw [htake] at hx
    rw [hdrop, unmarkLast, modify_last, y.littleEndian_eq_append] at hy
    obtain ⟨hy, htop⟩ := List.append_inj' hy rfl
    rw [lastBit_append_singleton] at hmark
    refine ⟨?_, hmark, List.singleton_inj.1 htop⟩
    rw [← List.take_append_drop 32 p, hx, hy]
  · rintro ⟨rfl, hmark, htop⟩
    rw [decode_eq_ok_iff_of_unmarked hlen (by rwa [lastBit_append_singleton])]
    refine ⟨x, y, rfl, ?_, ?_, hcurve⟩
    · rw [htake, List.take_left' (Radix.length_littleEndian ..)]
    · rw [hdrop, List.drop_left' (Radix.length_littleEndian ..), unmarkLast, modify_last, htop,
        y.littleEndian_eq_append]

/-- A point is read from its own bytes, with either value of the mark of its ordinate. -/
theorem decode_eq_affine_iff (hcurve : (affine x y).OnCurve) (he : (affine x y).encode = .ok e) :
    decode b = .ok (affine x y) ↔ b = e ∨ b = flipLarger e := by
  rw [encode_affine, Except.ok.injEq] at he
  subst he
  have hp : (Radix.littleEndian 32 x.val ++ Radix.littleEndian 31 y.val).length = 63 := by simp
  rw [flipLarger, modify_last]
  constructor
  · intro h
    obtain ⟨p, d, rfl, hp'⟩ := exists_last (length_of_decode h)
    obtain ⟨rfl, rfl | rfl⟩ := (decode_append_eq_affine_iff hp' hcurve).1 h
    · exact Or.inl rfl
    · exact Or.inr rfl
  · rintro (rfl | rfl)
    · exact (decode_append_eq_affine_iff hp hcurve).2 ⟨rfl, Or.inl rfl⟩
    · exact (decode_append_eq_affine_iff hp hcurve).2 ⟨rfl, Or.inr rfl⟩

/-- Reading a written point gives it back. -/
theorem decode_of_encode (hP : P.OnCurve) (he : P.encode = .ok e) : decode e = .ok P := by
  cases P with
  | infinity =>
    rw [decode_eq_infinity_iff]
    exact ⟨length_of_encode he, (lastBit_six_of_encode he).2 rfl⟩
  | affine x y => exact (decode_eq_affine_iff hP he).2 (Or.inl rfl)

theorem encode_inj {Q : G1} (hP : P.OnCurve) (hQ : Q.OnCurve) : P.encode = Q.encode ↔ P = Q := by
  constructor
  · intro h
    obtain ⟨e, he⟩ := P.exists_encode
    have hread := decode_of_encode hQ (h.symm.trans he)
    rw [decode_of_encode hP he, Except.ok.injEq] at hread
    exact hread
  · rintro rfl
    rfl

/-! ## The form and what is read in it -/

/-- **The uncompressed form is exact up to one mark.** A point on the curve is read from what it is
written as, which has bit 7 of its last byte set if the ordinate is the larger of two opposite ones;
of the point and its opposite just one has it. Besides this string only the one with that bit flipped
is read as the point. What is read as infinity is all that has 64 bytes and bit 6 set, and all else
that is read has two canonical coordinates, beside the marks, that solve the equation of the curve. -/
theorem uncompressed_exact :
    (∀ P : G1, P.OnCurve → ∃ e, P.encode = .ok e ∧ decode e = .ok P ∧
      (lastBit 7 e = true ↔ ∃ x y, P = affine x y ∧ q - y.val < y.val) ∧
      (P ≠ infinity → ∃ e', (-P).encode = .ok e' ∧ lastBit 7 e' = !lastBit 7 e) ∧
      (P ≠ infinity → ∀ b, decode b = .ok P ↔ b = e ∨ b = flipLarger e)) ∧
    (∀ b, decode b = .ok infinity ↔ b.length = 64 ∧ lastBit 6 b = true) ∧
    (∀ b P, decode b = .ok P → P.OnCurve) ∧
    ∀ b : Bytes,
      let m := Radix.ofLittleEndian (b.take 32)
      let n := Radix.ofLittleEndian (b.drop 32) % 2 ^ 254
      (∃ P, decode b = .ok P) ↔
        b.length = 64 ∧ (lastBit 6 b = true ∨ m < q ∧ n < q ∧ n ^ 2 ≡ m ^ 3 + 3 [MOD q]) := by
  refine ⟨?_, fun b => decode_eq_infinity_iff, fun b P => onCurve_of_decode, ?_⟩
  · intro P hP
    obtain ⟨e, he⟩ := P.exists_encode
    refine ⟨e, he, decode_of_encode hP he, lastBit_seven_of_encode he, ?_, ?_⟩
    · intro hne
      obtain ⟨e', he'⟩ := (-P).exists_encode
      exact ⟨e', he', lastBit_seven_neg hP hne he he'⟩
    · intro hne b
      cases P with
      | infinity => exact absurd rfl hne
      | affine x y => exact decode_eq_affine_iff hP he
  · intro b m n
    constructor
    · rintro ⟨P, hP⟩
      have hlen := length_of_decode hP
      cases hmark : lastBit 6 b with
      | true => exact ⟨hlen, Or.inl rfl⟩
      | false => exact ⟨hlen, Or.inr ((exists_decode_iff_of_unmarked hlen hmark).1 ⟨P, hP⟩)⟩
    · rintro ⟨hlen, hgood⟩
      cases hmark : lastBit 6 b with
      | true => exact ⟨_, decode_of_marked hlen hmark⟩
      | false =>
        refine (exists_decode_iff_of_unmarked hlen hmark).2 (hgood.resolve_left ?_)
        rw [hmark]
        exact Bool.false_ne_true

/-- The generator is read from two strings, and its opposite has the other mark. -/
theorem uncompressed_exact_generator :
    let e : Bytes := 1 :: List.replicate 31 0 ++ 2 :: List.replicate 31 0
    let f : Bytes := 1 :: List.replicate 31 0 ++ 2 :: List.replicate 30 0 ++ [0x80]
    generator.OnCurve ∧ generator ≠ infinity ∧ generator.encode = .ok e ∧ lastBit 7 e = false ∧
      decode e = .ok generator ∧ decode f = .ok generator ∧
      ∃ e', (-generator).encode = .ok e' ∧ lastBit 7 e' = true := by
  intro e f
  have hcurve : generator.OnCurve := by decide
  have hne : generator ≠ infinity := by
    intro h
    cases h
  have hwritten : generator.encode = .ok e := by decide +kernel
  have hflip : flipLarger e = f := by decide
  obtain ⟨e₁, he₁, hread, -, hneg, hfibre⟩ := uncompressed_exact.1 generator hcurve
  cases hwritten.symm.trans he₁
  obtain ⟨e', he', hmark⟩ := hneg hne
  refine ⟨hcurve, hne, hwritten, by decide, hread, (hfibre hne f).2 (Or.inr hflip.symm), e', he', ?_⟩
  rw [hmark]
  decide

end G1

end BlobSigner
