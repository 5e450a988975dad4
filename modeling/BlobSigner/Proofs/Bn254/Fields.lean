import BlobSigner.Proofs.Bn254.Encoding
import BlobSigner.Proofs.Bn254.Order
import Mathlib.Data.Option.NAry
/-!
# Computations with coordinates and scalars

A computation starts from integers, words and byte strings and goes on by the operations on residues.
Its result is the least non-negative representative of what the same computation yields in the field
of integers modulo `q`, or modulo `r`, and it has none exactly where that one has none
(`fields_exact`).
-/
namespace BlobSigner

namespace Residue

/-! ## Terms -/

/-- A computation, from residues that are given in some way. -/
inductive Term (ι : Type) where
  | given (x : ι)
  | add (s t : Term ι)
  | sub (s t : Term ι)
  | mul (s t : Term ι)
  | neg (t : Term ι)
  | square (t : Term ι)
  | pow (t : Term ι) (e : Int)
  | inverse (t : Term ι)

namespace Term

variable {ι : Type}

/-- What the operations on residues make of a term. -/
def run {m : Nat} [Modulus m] (read : ι → Option (Residue m)) : Term ι → Option (Residue m)
  | given x => read x
  | add s t => Option.map₂ (· + ·) (s.run read) (t.run read)
  | sub s t => Option.map₂ (· - ·) (s.run read) (t.run read)
  | mul s t => Option.map₂ (· * ·) (s.run read) (t.run read)
  | neg t => (t.run read).map (- ·)
  | square t => (t.run read).map Residue.square
  | pow t e => (t.run read).bind fun a => (a.zpow e).toOption
  | inverse t => (t.run read).bind fun a => a.inverse.toOption

/-- What a field makes of it. -/
def meaning {K : Type} [Field K] [DecidableEq K] (number : ι → Option K) : Term ι → Option K
  | given x => number x
  | add s t => Option.map₂ (· + ·) (s.meaning number) (t.meaning number)
  | sub s t => Option.map₂ (· - ·) (s.meaning number) (t.meaning number)
  | mul s t => Option.map₂ (· * ·) (s.meaning number) (t.meaning number)
  | neg t => (t.meaning number).map (- ·)
  | square t => (t.meaning number).map (· ^ 2)
  | pow t e => (t.meaning number).bind fun x => if e < 0 then none else some (x ^ e.toNat)
  | inverse t => (t.meaning number).bind fun x => if x = 0 then none else some x⁻¹

end Term

variable {m : Nat} [Modulus m]

section
variable [Fact m.Prime]

/-- Fermat's little theorem yields the inverse, too. -/
theorem zpow_sub_two (a : Residue m) (h : a ≠ 0) : a.zpow (m - 2) = a.inverse := by
  have htwo : 2 ≤ m := (Fact.out : m.Prime).two_le
  have hexponent : ((m : Int) - 2).toNat = m - 2 := by omega
  obtain ⟨b, hb⟩ := exists_inverse Fact.out h
  rw [zpow_of_nonneg a (by omega), hb, hexponent]
  congr 1
  rw [← toZMod_inj, toZMod_of_inverse hb, toZMod_pow]
  refine eq_inv_of_mul_eq_one_left ?_
  rw [← pow_succ, show m - 2 + 1 = m - 1 by omega]
  exact ZMod.pow_card_sub_one_eq_one (toZMod_ne_zero h)

/-! ## A term and its meaning -/

namespace Term

variable {ι : Type} {read : ι → Option (Residue m)} {number : ι → Option (ZMod m)}

theorem toOption_zpow (a : Residue m) (e : Int) :
    ((a.zpow e).toOption).map toZMod = if e < 0 then none else some (a.toZMod ^ e.toNat) := by
  by_cases h : e < 0
  · rw [zpow_of_neg a h, if_pos h]
    rfl
  · rw [zpow_of_nonneg a (Int.not_lt.1 h), if_neg h, ← toZMod_pow]
    rfl

theorem toOption_inverse (a : Residue m) :
    (a.inverse.toOption).map toZMod = if a.toZMod = 0 then none else some (a.toZMod)⁻¹ := by
  by_cases h : a = 0
  · rw [h, inverse_zero, toZMod_zero, if_pos rfl]
    rfl
  · obtain ⟨b, hb⟩ := exists_inverse Fact.out h
    rw [hb, if_neg (toZMod_ne_zero h), ← toZMod_of_inverse hb]
    rfl

/-- Each operation on residues is the field's, so a term has its meaning if what is given has. -/
theorem run_toZMod (h : ∀ x, (read x).map toZMod = number x) (t : Term ι) :
    (t.run read).map toZMod = t.meaning number := by
  induction t with
  | given x => exact h x
  | add s t ihs iht =>
    rw [run, meaning, ← ihs, ← iht]
    exact Option.map_map₂_distrib toZMod_add
  | sub s t ihs iht =>
    rw [run, meaning, ← ihs, ← iht]
    exact Option.map_map₂_distrib toZMod_sub
  | mul s t ihs iht =>
    rw [run, meaning, ← ihs, ← iht]
    exact Option.map_map₂_distrib toZMod_mul
  | neg t ih =>
    rw [run, meaning, ← ih, Option.map_map, Option.map_map]
    exact congrArg (Option.map · _) (funext toZMod_neg)
  | square t ih =>
    rw [run, meaning, ← ih, Option.map_map, Option.map_map]
    exact congrArg (Option.map · _) (funext toZMod_square)
  | pow t e ih =>
    rw [run, meaning, ← ih, Option.map_bind, Option.bind_map]
    exact congrArg (Option.bind _) (funext fun a => toOption_zpow a e)
  | inverse t ih =>
    rw [run, meaning, ← ih, Option.map_bind, Option.bind_map]
    exact congrArg (Option.bind _) (funext toOption_inverse)

end Term

end

/-! ## What is given -/

/-- How a residue is given. -/
inductive Source where
  | integer (v : Int)
  | word (w : UInt64)
  /-- Digits of any number, to be reduced. -/
  | digits (b : Bytes)
  /-- The canonical bytes of a residue. -/
  | canonical (b : Bytes)

/-- The value of a source; bytes need not have one. -/
def Source.read {α : Type} (integer : Int → α) (digits canonical : Bytes → Option α) :
    Source → Option α
  | .integer v => some (integer v)
  | .word w => some (integer w.toNat)
  | .digits b => digits b
  | .canonical b => canonical b

/-- The element of the ring with the canonical bytes `b`, which spell `n`. -/
def spelt (m : Nat) (b : Bytes) (n : Nat) : Option (ZMod m) :=
  if b.length = 32 ∧ n < m then some n else none

theorem toZMod_spelt (b : Bytes) (n : Nat) :
    (if b.length = 32 then (ofCanonical? n : Option (Residue m)) else none).map toZMod =
      spelt m b n := by
  by_cases hlength : b.length = 32
  · by_cases hn : n < m
    · rw [if_pos hlength, ofCanonical?, if_pos hn, spelt, if_pos ⟨hlength, hn⟩, Option.map_some,
        toZMod_ofNat]
    · rw [if_pos hlength, ofCanonical?, if_neg hn, spelt, if_neg fun h => hn h.2]
      rfl
  · rw [if_neg hlength, spelt, if_neg fun h => hlength h.1]
    rfl

theorem toZMod_read {digits canonical : Bytes → Option (Residue m)}
    {digits' canonical' : Bytes → Option (ZMod m)}
    (hdigits : ∀ b, (digits b).map toZMod = digits' b)
    (hcanonical : ∀ b, (canonical b).map toZMod = canonical' b) (s : Source) :
    (s.read ofInt digits canonical).map toZMod = s.read (↑·) digits' canonical' := by
  cases s with
  | integer v => exact congrArg some (toZMod_ofInt v)
  | word w => exact congrArg some (toZMod_ofInt w.toNat)
  | digits b => exact hdigits b
  | canonical b => exact hcanonical b

end Residue

namespace Fq

open Residue

/-- How coordinates are given. -/
def given? : Source → Option Fq :=
  Source.read .ofInt (fun b => some (ofBigEndian b)) fun b => (ofLittleEndian b).toOption

/-- The element of the field that is given. -/
def element? : Source → Option (ZMod q) :=
  Source.read (↑·) (fun b => some (Radix.ofBigEndian b)) fun b => spelt q b (Radix.ofLittleEndian b)

theorem toOption_ofLittleEndian (b : Bytes) :
    (ofLittleEndian b).toOption =
      if b.length = 32 then ofCanonical? (Radix.ofLittleEndian b) else none := by
  rw [ofLittleEndian, ite_not]
  split
  · cases (ofCanonical? (Radix.ofLittleEndian b) : Option Fq) <;> rfl
  · rfl

theorem toZMod_given? (s : Source) : (given? s).map toZMod = element? s := by
  refine toZMod_read (fun b => ?_) (fun b => ?_) s
  · exact congrArg some (toZMod_ofNat _)
  · rw [toOption_ofLittleEndian, toZMod_spelt]

end Fq

namespace Fr

open Residue

/-- How scalars are given. -/
def given? : Source → Option Fr :=
  Source.read .ofInt (fun b => (ofDigits b).toOption) fun b => (ofBigEndian b).toOption

/-- The element of the field that is given. No digits give none. -/
def element? : Source → Option (ZMod r) :=
  Source.read (↑·) (fun b => if b = [] then none else some (Radix.ofBigEndian b)) fun b =>
    spelt r b (Radix.ofBigEndian b)

theorem toOption_ofBigEndian (b : Bytes) :
    (ofBigEndian b).toOption =
      if b.length = 32 then ofCanonical? (Radix.ofBigEndian b) else none := by
  rw [ofBigEndian, ite_not]
  split
  · cases (ofCanonical? (Radix.ofBigEndian b) : Option Fr) <;> rfl
  · rfl

theorem toZMod_given? (s : Source) : (given? s).map toZMod = element? s := by
  refine toZMod_read (fun b => ?_) (fun b => ?_) s
  · cases b with
    | nil => rfl
    | cons d b => exact congrArg some (toZMod_ofNat _)
  · rw [toOption_ofBigEndian, toZMod_spelt]

end Fr

/-! ## The two fields -/

namespace Residue

open Term

variable {m : Nat} [Modulus m] [Fact m.Prime]

/-- The result of a term stands for its meaning, and there is none only if it has no meaning. -/
theorem run_exact {given? : Source → Option (Residue m)} {element? : Source → Option (ZMod m)}
    (h : ∀ s, (given? s).map toZMod = element? s) (t : Term Source) :
    (∀ a, t.run given? = some a → a.val < m ∧ t.meaning element? = some (a.val : ZMod m)) ∧
      (t.run given? = none ↔ t.meaning element? = none) := by
  rw [← run_toZMod h, Option.map_eq_none_iff]
  refine ⟨fun a ha => ⟨a.val_lt, ?_⟩, Iff.rfl⟩
  rw [ha]
  rfl

/-- Equal results stand for equal elements. -/
theorem run_inj {given? : Source → Option (Residue m)} {element? : Source → Option (ZMod m)}
    (h : ∀ s, (given? s).map toZMod = element? s) {s t : Term Source} {a b : Residue m}
    (hs : s.run given? = some a) (ht : t.run given? = some b) :
    a = b ↔ s.meaning element? = t.meaning element? := by
  rw [← run_toZMod h, ← run_toZMod h, hs, ht, Option.map_some, Option.map_some, Option.some_inj,
    toZMod_inj]

/-- **Coordinates and scalars are computed with as in the two fields.** What a computation yields is
below the modulus and stands for the element that the same computation yields in the field, so equal
results are equal elements. Only zero has no inverse; a power is the product of equal factors, of none
if the exponent is zero, and only negative exponents have none; and the inverse is a power. -/
theorem fields_exact :
    (∀ t : Term Source,
      (∀ a, t.run Fq.given? = some a → a.val < q ∧ t.meaning Fq.element? = some (a.val : ZMod q)) ∧
      (t.run Fq.given? = none ↔ t.meaning Fq.element? = none)) ∧
    (∀ t : Term Source,
      (∀ k, t.run Fr.given? = some k → k.val < r ∧ t.meaning Fr.element? = some (k.val : ZMod r)) ∧
      (t.run Fr.given? = none ↔ t.meaning Fr.element? = none)) ∧
    (∀ (s t : Term Source) (a b : Fq), s.run Fq.given? = some a → t.run Fq.given? = some b →
      (a = b ↔ s.meaning Fq.element? = t.meaning Fq.element?)) ∧
    (∀ (s t : Term Source) (k l : Fr), s.run Fr.given? = some k → t.run Fr.given? = some l →
      (k = l ↔ s.meaning Fr.element? = t.meaning Fr.element?)) ∧
    (∀ a : Fq, (a.inverse = .error .noInverse ↔ a = 0) ∧
      (a ≠ 0 → ∃ b, a.inverse = .ok b ∧ b * a = 1)) ∧
    (∀ (a : Fq) (e : Int), (a.zpow e = .error .negativeExponent ↔ e < 0) ∧
      (0 ≤ e → a.zpow e = .ok ((List.replicate e.toNat a).foldl (· * ·) 1))) ∧
    ∀ a : Fq, a ≠ 0 → a.zpow (q - 2) = a.inverse := by
  refine ⟨run_exact Fq.toZMod_given?, run_exact Fr.toZMod_given?, ?_, ?_, ?_, ?_, zpow_sub_two⟩
  · intro s t a b hs ht
    exact run_inj Fq.toZMod_given? hs ht
  · intro s t k l hs ht
    exact run_inj Fr.toZMod_given? hs ht
  · intro a
    refine ⟨inverse_eq_error_iff, fun hne => ?_⟩
    obtain ⟨b, hb⟩ := exists_inverse prime_q hne
    exact ⟨b, hb, (mul_of_inverse hb).2⟩
  · intro a e
    refine ⟨zpow_eq_error_iff, fun hnonneg => ?_⟩
    rw [zpow_of_nonneg a hnonneg, pow_eq_foldl]

/-- Three less than zero, reached in two ways, with its inverse and its square. -/
theorem fields_exact_negative :
    let a : Fq := .ofInt (-3)
    let s : Term Source := .given (.integer (-3))
    let t : Term Source := .sub (.given (.word 2)) (.given (.digits [0, 5]))
    a ≠ 0 ∧ s.run Fq.given? = some a ∧ t.run Fq.given? = some a ∧
      s.meaning Fq.element? = t.meaning Fq.element? ∧ a.zpow (q - 2) = a.inverse ∧
      (∃ b, a.inverse = .ok b ∧ b * a = 1) ∧ a.zpow 2 = .ok 9 := by
  intro a s t
  have hne : a ≠ 0 := by decide
  have hs : s.run Fq.given? = some a := rfl
  have ht : t.run Fq.given? = some a := by decide
  obtain ⟨-, -, hequal, -, hinverse, hpower, hfermat⟩ := fields_exact
  refine ⟨hne, hs, ht, (hequal s t a a hs ht).1 rfl, hfermat a hne, (hinverse a).2 hne, ?_⟩
  rw [(hpower a 2).2 (by decide)]
  decide

end Residue

end BlobSigner
