import BlobSigner.Bytes
/-!
# Integers as byte strings

A byte string is read as the base-256 digits of a number, most or least significant digit first.
An integer is written as exactly thirty-two digits; one that is negative or needs more digits has
no such form.
-/
namespace BlobSigner

/-- Why an integer operation has no result. -/
inductive ArithmeticError where
  /-- A negative integer has no unsigned digits. -/
  | negative
  /-- The integer needs more than thirty-two bytes. -/
  | tooWide
  /-- Exponents count factors. -/
  | negativeExponent
  /-- Zero has no multiplicative inverse. -/
  | noInverse
deriving DecidableEq, Repr

def ArithmeticError.message : ArithmeticError → String
  | .negative => "Cannot export a negative integer"
  | .tooWide => "Integer is larger than 32 bytes"
  | .negativeExponent => "Field exponent must be non-negative"
  | .noInverse => "Zero has no inverse in Fq"

namespace Radix

/-! ## Reading -/

/-- `ImportBigEndian`. -/
def ofBigEndian (b : Bytes) : Nat := b.foldl (fun n d => 256 * n + d.toNat) 0

/-- `ImportLittleEndian`. -/
def ofLittleEndian : Bytes → Nat
  | [] => 0
  | d :: r => d.toNat + 256 * ofLittleEndian r

/-! ## Writing -/

/-- The `w` lowest digits of `n`, least significant first. -/
def littleEndian : Nat → Nat → Bytes
  | 0, _ => []
  | w + 1, n => UInt8.ofNat (n % 256) :: littleEndian w (n / 256)

/-- The `w` lowest digits of `n`, most significant first. -/
def bigEndian (w n : Nat) : Bytes := (littleEndian w n).reverse

@[simp] theorem length_littleEndian (w n : Nat) : (littleEndian w n).length = w := by
  induction w generalizing n with
  | zero => rfl
  | succ w ih => simp [littleEndian, ih]

@[simp] theorem length_bigEndian (w n : Nat) : (bigEndian w n).length = w := by simp [bigEndian]

/-! ## Thirty-two digits -/

/-- How many binary digits `n` is written with. Zero is written with one. -/
def bitLength (n : Nat) : Nat := n.log2 + 1

/-- The digits of `n`, most significant first, without leading zeros. -/
def significant (n : Nat) : Bytes := if n = 0 then [] else bigEndian ((bitLength n + 7) / 8) n

theorem length_significant_le {n : Nat} (h : bitLength n ≤ 256) : (significant n).length ≤ 32 := by
  unfold significant
  split
  · exact Nat.zero_le 32
  · rw [length_bigEndian]
    omega

/-- The digits are written at the front of thirty-two cleared bytes and turned to their end. What is
in front of them then is cleared. -/
def rightAligned (n : Nat) : Bytes :=
  let digits := significant n
  let offset := 32 - digits.length
  let written := digits ++ List.replicate offset 0
  let turned := written.drop digits.length ++ written.take digits.length
  List.replicate offset 0 ++ turned.drop offset

theorem rightAligned_eq (n : Nat) :
    rightAligned n = List.replicate (32 - (significant n).length) 0 ++ significant n := by
  simp [rightAligned]

theorem length_rightAligned {n : Nat} (h : bitLength n ≤ 256) : (rightAligned n).length = 32 := by
  rw [rightAligned_eq, List.length_append, List.length_replicate]
  exact Nat.sub_add_cancel (length_significant_le h)

/-- `ExportBigEndian32`: thirty-two digits, most significant first, of an integer that has them. -/
def bigEndian32 (v : Int) : Except ArithmeticError Bytes32 :=
  if v < 0 then .error .negative
  else if v = 0 then .ok .zero
  else if h : 256 < bitLength v.toNat then .error .tooWide
  else .ok ⟨rightAligned v.toNat, length_rightAligned (Nat.le_of_not_lt h)⟩

/-- `ExportLittleEndian32`. -/
def littleEndian32 (v : Int) : Except ArithmeticError Bytes32 := (bigEndian32 v).map .reverse

end Radix

end BlobSigner
