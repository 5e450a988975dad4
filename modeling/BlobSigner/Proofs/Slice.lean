import BlobSigner.Proofs.Radix
import BlobSigner.Slice
import Mathlib.Data.List.Induction
/-!
# The wire form of slices

The header of a slice announces how long its payload is. Bytes with a payload of just that length,
within the limit, are read, and they are what writing the slice gives (`decode_eq_ok_iff`); all
others are refused, each for one reason (`decode_eq_error_iff`). Reading is done in words of 64 bits,
which hold every number on the way (`toNat_readWord`, `toNat_stop`), so it can be stated in plain
numbers (`decode_of_header`).
-/
namespace BlobSigner.Slice

variable {limit : UInt64} {b : Bytes} {s : Slice}

/-! ## Numbers of the header -/

/-- A word with its top byte free loses nothing when it is shifted up. -/
theorem toNat_shiftLeft {w : UInt64} (h : w.toNat < 2 ^ 56) : (w <<< 8).toNat = 256 * w.toNat := by
  rw [UInt64.toNat_shiftLeft, show UInt64.toNat 8 % 64 = 8 from rfl, Nat.shiftLeft_eq]
  omega

/-- The next byte then comes in below it. -/
theorem toNat_shiftLeft_or {w : UInt64} (h : w.toNat < 2 ^ 56) (d : UInt8) :
    (w <<< 8 ||| d.toUInt64).toNat = 256 * w.toNat + d.toNat := by
  have hd : d.toNat < 2 ^ 8 := d.toNat_lt
  rw [UInt64.toNat_or, toNat_shiftLeft h, UInt8.toNat_toUInt64]
  exact (Nat.two_pow_add_eq_or_of_lt hd w.toNat).symm

theorem readWord_append_singleton (b : Bytes) (d : UInt8) :
    readWord (b ++ [d]) = readWord b <<< 8 ||| d.toUInt64 := by
  simp [readWord]

theorem ofBigEndian_lt_of_length (h : b.length < 8) : Radix.ofBigEndian b < 2 ^ 56 := by
  have hlt := Radix.ofBigEndian_lt b
  have hle : 256 ^ b.length ≤ 256 ^ 7 := Nat.pow_le_pow_right (by decide) (by omega)
  omega

/-- Up to eight bytes fit a word. -/
theorem toNat_readWord (h : b.length ≤ 8) : (readWord b).toNat = Radix.ofBigEndian b := by
  induction b using List.reverseRecOn with
  | nil => rfl
  | append_singleton b d ih =>
    simp only [List.length_append, List.length_singleton] at h
    have hread := ih (by omega)
    have hfree : (readWord b).toNat < 2 ^ 56 := by
      rw [hread]
      exact ofBigEndian_lt_of_length (by omega)
    rw [readWord_append_singleton, toNat_shiftLeft_or hfree, hread,
      Radix.ofBigEndian_append_singleton]

/-- While bytes are left to come, the top byte of the word is free. -/
theorem toNat_readWord_lt (h : b.length < 8) : (readWord b).toNat < 2 ^ 56 := by
  rw [toNat_readWord (by omega)]
  exact ofBigEndian_lt_of_length h

/-- What the header says of the length of the payload. -/
def announced (b : Bytes) : Nat := Radix.ofBigEndian ((b.drop 8).take 4)

theorem toNat_readLength (b : Bytes) : (readWord ((b.drop 8).take 4)).toNat = announced b :=
  toNat_readWord (by simp)

theorem announced_lt (b : Bytes) : announced b < 2 ^ 32 := by
  have hlt := Radix.ofBigEndian_lt ((b.drop 8).take 4)
  have hle : 256 ^ ((b.drop 8).take 4).length ≤ 256 ^ 4 :=
    Nat.pow_le_pow_right (by decide) (List.length_take_le ..)
  exact Nat.lt_of_lt_of_le hlt hle

/-- The end of the payload is a word, too. -/
theorem toNat_stop (b : Bytes) :
    (12 + readWord ((b.drop 8).take 4)).toNat = 12 + announced b := by
  have hlt := announced_lt b
  rw [UInt64.toNat_add, toNat_readLength, show UInt64.toNat 12 = 12 from rfl]
  omega

/-! ## Reading -/

/-- With its header there, what is read depends on the numbers of the header alone. -/
theorem decode_of_header (limit : UInt64) (h : 12 ≤ b.length) :
    decode limit b =
      if limit.toNat < announced b then .error .aboveLimit
      else if b.length = 12 + announced b then .ok ⟨readWord (b.take 8), b.drop 12⟩
      else if b.length < 12 + announced b then .error .truncated
      else .error .trailing := by
  have hindex : ¬ b.length < 8 := by omega
  have hlength : ¬ b.length < 12 := by omega
  simp only [decode, if_neg hindex, if_neg hlength, UInt64.lt_iff_toNat_lt, toNat_readLength,
    toNat_stop, eq_comm (a := 12 + announced b)]

/-- Why bytes are refused: the first of the checks, in order, that they do not pass. -/
inductive Refused (limit : UInt64) (b : Bytes) : FormError → Prop where
  | shortIndex : b.length < 8 → Refused limit b .shortIndex
  | shortLength : 8 ≤ b.length → b.length < 12 → Refused limit b .shortLength
  | aboveLimit : 12 ≤ b.length → limit.toNat < announced b → Refused limit b .aboveLimit
  | truncated : 12 ≤ b.length → announced b ≤ limit.toNat → b.length < 12 + announced b →
      Refused limit b .truncated
  | trailing : 12 ≤ b.length → announced b ≤ limit.toNat → 12 + announced b < b.length →
      Refused limit b .trailing

theorem decode_of_refused {e : FormError} (h : Refused limit b e) : decode limit b = .error e := by
  cases h with
  | shortIndex h => rw [decode, if_pos h]
  | shortLength h8 h => rw [decode, if_neg (by omega), if_pos h]
  | aboveLimit h12 h => rw [decode_of_header limit h12, if_pos h]
  | truncated h12 hlimit h =>
    rw [decode_of_header limit h12, if_neg (by omega), if_neg (by omega), if_pos h]
  | trailing h12 hlimit h =>
    rw [decode_of_header limit h12, if_neg (by omega), if_neg (by omega), if_neg (by omega)]

/-- The bytes have a header, the length in it is within the limit, and the payload ends with them. -/
structure Framed (limit : UInt64) (b : Bytes) : Prop where
  header : 12 ≤ b.length
  within : announced b ≤ limit.toNat
  whole : b.length = 12 + announced b

theorem decode_of_framed (h : Framed limit b) :
    decode limit b = .ok ⟨readWord (b.take 8), b.drop 12⟩ := by
  have hwithin : ¬ limit.toNat < announced b := Nat.not_lt.2 h.within
  rw [decode_of_header limit h.header, if_neg hwithin, if_pos h.whole]

theorem framed_or_refused (limit : UInt64) (b : Bytes) :
    Framed limit b ∨ ∃ e, Refused limit b e := by
  by_cases h8 : b.length < 8
  · exact Or.inr ⟨_, .shortIndex h8⟩
  by_cases h12 : b.length < 12
  · exact Or.inr ⟨_, .shortLength (by omega) h12⟩
  by_cases hlimit : limit.toNat < announced b
  · exact Or.inr ⟨_, .aboveLimit (by omega) hlimit⟩
  rcases Nat.lt_trichotomy b.length (12 + announced b) with h | h | h
  · exact Or.inr ⟨_, .truncated (by omega) (by omega) h⟩
  · exact Or.inl ⟨by omega, by omega, h⟩
  · exact Or.inr ⟨_, .trailing (by omega) (by omega) h⟩

theorem decode_eq_error_iff {e : FormError} : decode limit b = .error e ↔ Refused limit b e := by
  constructor
  · intro h
    rcases framed_or_refused limit b with hframed | ⟨e', hrefused⟩
    · rw [decode_of_framed hframed] at h
      cases h
    · rw [decode_of_refused hrefused] at h
      cases h
      exact hrefused
  · exact decode_of_refused

theorem framed_of_decode (h : decode limit b = .ok s) :
    Framed limit b ∧ s = ⟨readWord (b.take 8), b.drop 12⟩ := by
  rcases framed_or_refused limit b with hframed | ⟨e, hrefused⟩
  · rw [decode_of_framed hframed] at h
    cases h
    exact ⟨hframed, rfl⟩
  · rw [decode_of_refused hrefused] at h
    cases h

/-! ## Reading what is written -/

theorem encode_eq_ok_iff :
    s.encode = .ok b ↔ s.payload.length < 2 ^ 32 ∧
      b = Radix.bigEndian 8 s.index.toNat ++ Radix.bigEndian 4 s.payload.length ++ s.payload := by
  unfold encode
  split
  · rename_i h
    have hfits : s.payload.length < 2 ^ 32 := h
    simp only [Except.ok.injEq, hfits, true_and, eq_comm (b := b)]
  · rename_i h
    have hlong : ¬ s.payload.length < 2 ^ 32 := h
    simp only [reduceCtorEq, hlong, false_and]

/-- The header of a written slice gives its length. -/
theorem announced_of_encode (h : s.encode = .ok b) :
    announced b = s.payload.length ∧ b.length = 12 + s.payload.length := by
  obtain ⟨hfits, rfl⟩ := encode_eq_ok_iff.1 h
  constructor
  · simp only [announced, List.append_assoc]
    rw [List.drop_left' (by simp), List.take_left' (by simp), Radix.ofBigEndian_bigEndian]
    exact Nat.mod_eq_of_lt hfits
  · simp
    omega

/-- The bytes that are read are those that writing gives. -/
theorem encode_of_framed (h : Framed limit b) :
    encode ⟨readWord (b.take 8), b.drop 12⟩ = .ok b := by
  have hindex : (b.take 8).length = 8 := by
    have := h.header
    simp
    omega
  have hlength : ((b.drop 8).take 4).length = 4 := by
    have := h.header
    simp
    omega
  have hpayload : (b.drop 12).length = announced b := by
    have := h.whole
    simp
    omega
  refine encode_eq_ok_iff.2 ⟨hpayload ▸ announced_lt b, ?_⟩
  have hi := Radix.bigEndian_ofBigEndian (b.take 8)
  have hl := Radix.bigEndian_ofBigEndian ((b.drop 8).take 4)
  rw [hindex] at hi
  rw [hlength] at hl
  simp only [hpayload]
  rw [toNat_readWord (by omega), hi, announced, hl, List.append_assoc,
    show b.drop 12 = (b.drop 8).drop 4 by simp, List.take_append_drop, List.take_append_drop]

/-- **A slice is read from the bytes that it is written as, and from no others.** -/
theorem decode_eq_ok_iff :
    decode limit b = .ok s ↔ s.encode = .ok b ∧ s.payload.length ≤ limit.toNat := by
  constructor
  · intro h
    obtain ⟨hframed, rfl⟩ := framed_of_decode h
    have hencode := encode_of_framed hframed
    exact ⟨hencode, (announced_of_encode hencode).1 ▸ hframed.within⟩
  · rintro ⟨hencode, hlimit⟩
    obtain ⟨hannounced, hlength⟩ := announced_of_encode hencode
    have hframed : Framed limit b := ⟨by omega, by omega, by omega⟩
    rw [decode_of_framed hframed]
    obtain ⟨-, rfl⟩ := encode_eq_ok_iff.1 hencode
    have hindex : readWord (Radix.bigEndian 8 s.index.toNat) = s.index := by
      rw [← UInt64.toNat_inj, toNat_readWord (by simp), Radix.ofBigEndian_bigEndian]
      exact Nat.mod_eq_of_lt s.index.toNat_lt
    rw [List.append_assoc, List.take_left' (by simp), ← List.append_assoc,
      List.drop_left' (by simp), hindex]

/-! ## The wire form -/

/-- **The wire form of a slice is exact.** A slice with a payload that fits its four bytes of length
is written, and read back if the payload keeps to the limit. Bytes are read exactly if they have the
header and the payload that it announces, within the limit, and nothing more; then writing what was
read gives them back. All other bytes are refused, for the first check that they do not pass. On the
way no shift loses a bit and the end of the payload is counted without wrapping. -/
theorem wire_exact (limit : UInt64) :
    (∀ s : Slice, s.payload.length < 2 ^ 32 → ∃ b, s.encode = .ok b ∧
      (s.payload.length ≤ limit.toNat → decode limit b = .ok s) ∧
      (limit.toNat < s.payload.length → decode limit b = .error .aboveLimit)) ∧
    ∀ b : Bytes,
      ((∃ s, decode limit b = .ok s) ↔
        12 ≤ b.length ∧ announced b ≤ limit.toNat ∧ b.length = 12 + announced b) ∧
      (∀ s, decode limit b = .ok s → s.encode = .ok b) ∧
      (∀ e, decode limit b = .error e ↔ Refused limit b e) ∧
      (12 + readWord ((b.drop 8).take 4)).toNat = 12 + announced b ∧
      ∀ word ∈ [b.take 8, (b.drop 8).take 4], ∀ p d, p ++ [d] <+: word →
        (readWord p <<< 8).toNat = 256 * (readWord p).toNat ∧
          (readWord (p ++ [d])).toNat = 256 * (readWord p).toNat + d.toNat := by
  refine ⟨fun s hfits => ?_, fun b => ⟨?_, ?_, fun e => decode_eq_error_iff, toNat_stop b, ?_⟩⟩
  · have hencode := encode_eq_ok_iff.2 ⟨hfits, rfl⟩
    obtain ⟨hannounced, hlength⟩ := announced_of_encode hencode
    refine ⟨_, hencode, fun h => decode_eq_ok_iff.2 ⟨hencode, h⟩, fun h => ?_⟩
    exact decode_of_refused (.aboveLimit (by omega) (by omega))
  · constructor
    · rintro ⟨s, h⟩
      obtain ⟨hframed, -⟩ := framed_of_decode h
      exact ⟨hframed.header, hframed.within, hframed.whole⟩
    · rintro ⟨header, within, whole⟩
      exact ⟨_, decode_of_framed ⟨header, within, whole⟩⟩
  · exact fun s h => (decode_eq_ok_iff.1 h).1
  · intro word hword p d hp
    have hlength : (p ++ [d]).length ≤ 8 := by
      refine hp.length_le.trans ?_
      simp only [List.mem_cons, List.not_mem_nil, or_false] at hword
      rcases hword with rfl | rfl <;> simp
    simp only [List.length_append, List.length_singleton] at hlength
    have hfree := toNat_readWord_lt (b := p) (by omega)
    rw [readWord_append_singleton]
    exact ⟨toNat_shiftLeft hfree, toNat_shiftLeft_or hfree d⟩

/-- A payload as long as the limit allows, and one byte longer. -/
theorem wire_exact_at_limit :
    let s : Slice := ⟨7, [1, 2, 3]⟩
    let b : Bytes := [0, 0, 0, 0, 0, 0, 0, 7, 0, 0, 0, 3, 1, 2, 3]
    s.payload.length < 2 ^ 32 ∧ s.encode = .ok b ∧ decode 3 b = .ok s ∧
      decode 2 b = .error .aboveLimit ∧ decode 3 (b ++ [0]) = .error .trailing := by
  intro s b
  have hfits : s.payload.length < 2 ^ 32 := by decide
  have hencode : s.encode = .ok b := encode_eq_ok_iff.2 ⟨hfits, by decide⟩
  obtain ⟨hwritten, hread⟩ := wire_exact 3
  obtain ⟨b₃, hb₃, hok, -⟩ := hwritten s hfits
  obtain ⟨b₂, hb₂, -, hbad⟩ := (wire_exact 2).1 s hfits
  cases hencode.symm.trans hb₃
  cases hencode.symm.trans hb₂
  obtain ⟨-, -, hrefused, -⟩ := hread (b ++ [0])
  refine ⟨hfits, hencode, hok (by decide), hbad (by decide), (hrefused _).2 ?_⟩
  exact .trailing (by decide) (by decide) (by decide)

end BlobSigner.Slice
