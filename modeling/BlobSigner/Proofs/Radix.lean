import BlobSigner.Integer.Radix
import Mathlib.Algebra.Group.Nat.Defs
import Mathlib.Data.List.Induction
import Mathlib.Data.List.OfFn
/-!
# Digits of numbers

Reading takes back what writing gives, and the other way round: `w` digits determine a number below
`256 ^ w`, and every string of bytes is the digits of the number it spells. The digits of a number
most significant first are the same from the other end. Thirty-two bytes that are filled with the
digits of a number from the first that is not zero hold its thirty-two digits (`bigEndian32_of_lt`).
-/
namespace BlobSigner.Radix

theorem toNat_ofNat_mod (n : Nat) : (UInt8.ofNat (n % 256)).toNat = n % 256 := by
  rw [UInt8.toNat_ofNat']
  exact Nat.mod_mod n 256

/-- The numbers that `w` digits spell are those below `256 ^ w`. -/
theorem ofLittleEndian_littleEndian (w n : Nat) :
    ofLittleEndian (littleEndian w n) = n % 256 ^ w := by
  induction w generalizing n with
  | zero => rw [pow_zero, Nat.mod_one]; rfl
  | succ w ih => rw [littleEndian, ofLittleEndian, ih, toNat_ofNat_mod, pow_succ', Nat.mod_mul]

/-- Every string of bytes is the digits of its number. -/
theorem littleEndian_ofLittleEndian (b : Bytes) : littleEndian b.length (ofLittleEndian b) = b := by
  induction b with
  | nil => rfl
  | cons d r ih =>
    have hd : d.toNat < 256 := d.toNat_lt
    have hlow : (d.toNat + 256 * ofLittleEndian r) % 256 = d.toNat := by omega
    have hhigh : (d.toNat + 256 * ofLittleEndian r) / 256 = ofLittleEndian r := by omega
    rw [ofLittleEndian, List.length_cons, littleEndian, hlow, hhigh, ih, UInt8.ofNat_toNat]

theorem littleEndian_inj {w n m : Nat} (hn : n < 256 ^ w) (hm : m < 256 ^ w) :
    littleEndian w n = littleEndian w m ↔ n = m := by
  constructor
  · intro h
    have hread := congrArg ofLittleEndian h
    rwa [ofLittleEndian_littleEndian, ofLittleEndian_littleEndian, Nat.mod_eq_of_lt hn,
      Nat.mod_eq_of_lt hm] at hread
  · rintro rfl
    rfl

/-- Digits of a number that fits are told by reading them. -/
theorem eq_littleEndian_iff {b : Bytes} {w n : Nat} (hw : b.length = w) (hn : n < 256 ^ w) :
    b = littleEndian w n ↔ ofLittleEndian b = n := by
  constructor
  · rintro rfl
    rw [ofLittleEndian_littleEndian, Nat.mod_eq_of_lt hn]
  · rintro rfl
    rw [← hw, littleEndian_ofLittleEndian]

theorem bigEndian_inj {w n m : Nat} (hn : n < 256 ^ w) (hm : m < 256 ^ w) :
    bigEndian w n = bigEndian w m ↔ n = m := by
  rw [bigEndian, bigEndian, List.reverse_inj, littleEndian_inj hn hm]

/-- Digit `i` counts the powers `256 ^ i`. -/
theorem littleEndian_eq_ofFn (w n : Nat) :
    littleEndian w n = List.ofFn fun i : Fin w => UInt8.ofNat (n / 256 ^ i.val % 256) := by
  induction w generalizing n with
  | zero => rfl
  | succ w ih =>
    rw [littleEndian, ih, List.ofFn_succ]
    simp only [Fin.val_zero, pow_zero, Nat.div_one, Fin.val_succ, pow_succ', Nat.div_div_eq_div_mul]

theorem littleEndian_succ_append (w n : Nat) :
    littleEndian (w + 1) n = littleEndian w n ++ [UInt8.ofNat (n / 256 ^ w % 256)] := by
  rw [littleEndian_eq_ofFn, littleEndian_eq_ofFn, List.ofFn_succ_last]
  simp only [Fin.val_castSucc, Fin.val_last]

/-- The digits that come later count for more. -/
theorem ofLittleEndian_append (b c : Bytes) :
    ofLittleEndian (b ++ c) = ofLittleEndian b + 256 ^ b.length * ofLittleEndian c := by
  induction b with
  | nil => simp [ofLittleEndian]
  | cons d b ih =>
    rw [List.cons_append, ofLittleEndian, ofLittleEndian, ih, List.length_cons, pow_succ',
      Nat.mul_add, Nat.mul_assoc, Nat.add_assoc]

theorem ofLittleEndian_lt (b : Bytes) : ofLittleEndian b < 256 ^ b.length := by
  rw [← littleEndian_ofLittleEndian b, ofLittleEndian_littleEndian, length_littleEndian]
  exact Nat.mod_lt _ (Nat.pow_pos (by decide))

/-- One digit in its place, between those below and those above it. -/
theorem modify_append_cons (l r : Bytes) (d : UInt8) (f : UInt8 → UInt8) :
    (l ++ d :: r).modify l.length f = l ++ f d :: r := by
  induction l with
  | nil => rfl
  | cons e l ih =>
    rw [List.cons_append, List.length_cons, List.modify_succ_cons, ih]
    rfl

/-! ## Most significant digit first -/

theorem ofBigEndian_append_singleton (b : Bytes) (d : UInt8) :
    ofBigEndian (b ++ [d]) = 256 * ofBigEndian b + d.toNat := by
  simp [ofBigEndian]

theorem ofBigEndian_eq_reverse (b : Bytes) : ofBigEndian b = ofLittleEndian b.reverse := by
  induction b using List.reverseRecOn with
  | nil => rfl
  | append_singleton b d ih =>
    rw [ofBigEndian_append_singleton, ih, List.reverse_append, List.reverse_singleton,
      List.singleton_append, ofLittleEndian, Nat.add_comm]

theorem ofBigEndian_lt (b : Bytes) : ofBigEndian b < 256 ^ b.length := by
  rw [ofBigEndian_eq_reverse, ← List.length_reverse]
  exact ofLittleEndian_lt b.reverse

theorem ofBigEndian_bigEndian (w n : Nat) : ofBigEndian (bigEndian w n) = n % 256 ^ w := by
  rw [ofBigEndian_eq_reverse, bigEndian, List.reverse_reverse, ofLittleEndian_littleEndian]

theorem bigEndian_ofBigEndian (b : Bytes) : bigEndian b.length (ofBigEndian b) = b := by
  rw [ofBigEndian_eq_reverse, bigEndian, ← List.length_reverse, littleEndian_ofLittleEndian,
    List.reverse_reverse]

theorem eq_bigEndian_iff {b : Bytes} {w n : Nat} (hw : b.length = w) (hn : n < 256 ^ w) :
    b = bigEndian w n ↔ ofBigEndian b = n := by
  rw [bigEndian, ← List.reverse_eq_iff, ofBigEndian_eq_reverse]
  exact eq_littleEndian_iff (b.length_reverse.trans hw) hn

theorem bigEndian_succ (w n : Nat) :
    bigEndian (w + 1) n = UInt8.ofNat (n / 256 ^ w % 256) :: bigEndian w n := by
  rw [bigEndian, littleEndian_succ_append, List.reverse_append, List.reverse_singleton,
    List.singleton_append, bigEndian]

/-- Leading zeros count for nothing. -/
theorem ofBigEndian_replicate_append (k : Nat) (b : Bytes) :
    ofBigEndian (List.replicate k 0 ++ b) = ofBigEndian b := by
  induction k with
  | zero => rfl
  | succ k ih =>
    rw [List.replicate_succ, List.cons_append, ← ih]
    rfl

/-! ## Significant digits -/

theorem two_pow_eight_mul (k : Nat) : 2 ^ (8 * k) = 256 ^ k := Nat.pow_mul 2 8 k

theorem bitLength_le_iff {n w : Nat} (h : n ≠ 0) : bitLength n ≤ w ↔ n < 2 ^ w := Nat.log2_lt h

/-- There are as many digits as the bits need. -/
theorem ofBigEndian_significant (n : Nat) : ofBigEndian (significant n) = n := by
  unfold significant
  split
  · rename_i h
    rw [h]
    rfl
  · rename_i h
    have hfits : n < 256 ^ ((bitLength n + 7) / 8) := by
      rw [← two_pow_eight_mul, ← bitLength_le_iff h]
      omega
    rw [ofBigEndian_bigEndian, Nat.mod_eq_of_lt hfits]

/-- And no more: the first one is not zero. -/
theorem head?_significant (n : Nat) : (significant n).head? ≠ some 0 := by
  unfold significant
  split
  · exact nofun
  · rename_i h
    obtain ⟨k, hk⟩ : ∃ k, k = n.log2 / 8 := ⟨_, rfl⟩
    have hcount : (bitLength n + 7) / 8 = k + 1 := by
      rw [bitLength]
      omega
    have hlow : 256 ^ k ≤ n := by
      rw [← two_pow_eight_mul]
      exact Nat.le_trans (Nat.pow_le_pow_right (by decide) (by omega)) (Nat.log2_self_le h)
    have hhigh : n < 256 ^ k * 256 := by
      rw [← pow_succ, ← two_pow_eight_mul, ← bitLength_le_iff h]
      omega
    have hdigit : (UInt8.ofNat (n / 256 ^ k % 256)).toNat = n / 256 ^ k := by
      rw [toNat_ofNat_mod, Nat.mod_eq_of_lt (Nat.div_lt_of_lt_mul hhigh)]
    have hpos : 0 < n / 256 ^ k := Nat.div_pos hlow (Nat.pow_pos (by decide))
    rw [hcount, bigEndian_succ, List.head?_cons, Ne, Option.some_inj, ← UInt8.toNat_inj, hdigit]
    exact Nat.ne_of_gt hpos

/-! ## Thirty-two digits -/

theorem ofBigEndian_rightAligned (n : Nat) : ofBigEndian (rightAligned n) = n := by
  rw [rightAligned_eq, ofBigEndian_replicate_append, ofBigEndian_significant]

theorem bigEndian32_of_neg {v : Int} (h : v < 0) : bigEndian32 v = .error .negative := if_pos h

theorem bigEndian32_of_lt {n : Nat} (h : n < 1 <<< 256) :
    bigEndian32 n = .ok ⟨bigEndian 32 n, length_bigEndian ..⟩ := by
  rw [bigEndian32, if_neg (by omega)]
  split
  · rename_i h0
    rw [Int.natCast_eq_zero.1 h0]
    rfl
  · rename_i h0
    have hbits : bitLength n ≤ 256 := (bitLength_le_iff (by omega)).2 h
    have hdigits : rightAligned n = bigEndian 32 n :=
      (eq_bigEndian_iff (length_rightAligned hbits) h).2 (ofBigEndian_rightAligned n)
    exact (dif_neg (Nat.not_lt.2 hbits)).trans (congrArg Except.ok (Bytes32.ext hdigits))

theorem bigEndian32_of_le {n : Nat} (h : 1 <<< 256 ≤ n) : bigEndian32 n = .error .tooWide := by
  have hn : n ≠ 0 := by
    rintro rfl
    exact absurd h (by decide)
  have hbits : ¬ bitLength n ≤ 256 := by
    rw [bitLength_le_iff hn, Nat.not_lt, ← Nat.one_shiftLeft]
    exact h
  rw [bigEndian32, if_neg (Int.not_lt.2 (Int.natCast_nonneg n)), if_neg (mt Int.natCast_eq_zero.1 hn)]
  exact dif_pos (Nat.lt_of_not_le hbits)

end BlobSigner.Radix
