import BlobSigner.Hex
import BlobSigner.Integer.Radix
/-!
# Hexadecimal text

A text is read as the bytes for which it is written, once its letters are made small
(`decodePairs_eq_ok_iff`), and the number of these bytes is the one that its digits spell
(`number_of_map_lower`). All that is written is read: no text of bytes starts with a marker that was
not put there (`decode_encode`). What cannot be read has an odd length or a byte that is no digit
(`decodeText_eq_error_iff`). Together: `codec_exact`.
-/
namespace BlobSigner.Hex

/-! ## Digits -/

def digits : Bytes := utf8 "0123456789abcdef"

/-- A capital letter made small. -/
def lower (c : UInt8) : UInt8 := if 65 ≤ c ∧ c ≤ 90 then c + 32 else c

/-- Letters of either case count. -/
def IsDigit (c : UInt8) : Prop := lower c ∈ digits

instance : DecidablePred IsDigit := fun c => inferInstanceAs (Decidable (lower c ∈ digits))

/-- What a digit counts for. -/
def place (c : UInt8) : Nat := digits.idxOf (lower c)

variable {c : UInt8} {n m : Nat} {t b : Bytes} {e : HexError}

theorem digits_eq : digits = (List.range 16).map digit := rfl

theorem isDigit_iff_isSome_value? : IsDigit c ↔ (value? c).isSome := by
  induction c using forall_byte with
  | h k =>
    revert k
    decide +kernel

theorem isDigit_iff_mem : IsDigit c ↔ c ∈ utf8 "0123456789abcdefABCDEF" := by
  induction c using forall_byte with
  | h k =>
    revert k
    decide +kernel

theorem value?_of_lower : ∀ n < 16, lower c = digit n → value? c = some n := by
  induction c using forall_byte with
  | h k =>
    revert k
    decide +kernel

theorem lower_of_value? : ∀ n ∈ value? c, n < 16 ∧ lower c = digit n := by
  induction c using forall_byte with
  | h k =>
    revert k
    decide +kernel

/-- A digit of either case has the value of the small one. -/
theorem value?_eq_some_iff : value? c = some n ↔ n < 16 ∧ lower c = digit n :=
  ⟨fun h => lower_of_value? n h, fun h => value?_of_lower n h.1 h.2⟩

theorem lower_eq_digit_iff (hc : value? c = some n) (hm : m < 16) : lower c = digit m ↔ n = m := by
  have hiff : value? c = some m ↔ lower c = digit m := by simp [value?_eq_some_iff, hm]
  rw [← hiff, hc, Option.some_inj]

theorem lower_digit : n < 16 → lower (digit n) = digit n := by
  revert n
  decide

theorem digit_mem_digits (h : n < 16) : digit n ∈ digits := by
  rw [digits_eq]
  exact List.mem_map_of_mem (List.mem_range.2 h)

theorem exists_digit_of_mem_digits (h : c ∈ digits) : ∃ n < 16, digit n = c := by
  rw [digits_eq] at h
  obtain ⟨n, hn, hdigit⟩ := List.mem_map.1 h
  exact ⟨n, List.mem_range.1 hn, hdigit⟩

theorem idxOf_digit : n < 16 → digits.idxOf (digit n) = n := by
  rw [digits_eq]
  revert n
  decide

/-! ## Texts of bytes -/

theorem high_lt (a : UInt8) : a.toNat / 16 < 16 := by
  have := a.toNat_lt
  omega

theorem low_lt (a : UInt8) : a.toNat % 16 < 16 := Nat.mod_lt _ (by decide)

@[simp] theorem length_encodeText (b : Bytes) : (encodeText b).length = 2 * b.length := by
  induction b with
  | nil => rfl
  | cons a b ih =>
    simp only [encodeText, List.length_cons, ih]
    omega

/-- Only small letters are written. -/
theorem map_lower_encodeText (b : Bytes) : (encodeText b).map lower = encodeText b := by
  induction b with
  | nil => rfl
  | cons a b ih =>
    simp only [encodeText, List.map_cons, lower_digit (high_lt a), lower_digit (low_lt a), ih]

theorem mem_digits_of_mem_encodeText (h : c ∈ encodeText b) : c ∈ digits := by
  induction b with
  | nil => cases h
  | cons a b ih =>
    simp only [encodeText, List.mem_cons] at h
    rcases h with rfl | rfl | h
    · exact digit_mem_digits (high_lt a)
    · exact digit_mem_digits (low_lt a)
    · exact ih h

theorem isDigit_of_map_lower (h : t.map lower = encodeText b) : ∀ c ∈ t, IsDigit c := by
  intro c hc
  have hlower : lower c ∈ t.map lower := List.mem_map_of_mem hc
  rw [h] at hlower
  exact mem_digits_of_mem_encodeText hlower

/-! ## Markers -/

theorem utf8_smallMarker : utf8 "0x" = [0x30, 0x78] := rfl

theorem utf8_capitalMarker : utf8 "0X" = [0x30, 0x58] := rfl

theorem dropMarker_small (t : Bytes) : dropMarker (utf8 "0x" ++ t) = t := by
  rw [utf8_smallMarker]
  rfl

theorem dropMarker_capital (t : Bytes) : dropMarker (utf8 "0X" ++ t) = t := by
  rw [utf8_capitalMarker]
  rfl

theorem dropMarker_of_unmarked (h : ¬ utf8 "0x" <+: t) (h' : ¬ utf8 "0X" <+: t) :
    dropMarker t = t := by
  rw [utf8_smallMarker] at h
  rw [utf8_capitalMarker] at h'
  unfold dropMarker
  split
  · exact absurd ⟨_, rfl⟩ h
  · exact absurd ⟨_, rfl⟩ h'
  · rfl

/-- The second byte of a marker is no digit. -/
theorem dropMarker_of_digits (h : ∀ c ∈ t, IsDigit c) : dropMarker t = t := by
  unfold dropMarker
  split
  · exact absurd (h 0x78 (by simp)) (by decide)
  · exact absurd (h 0x58 (by simp)) (by decide)
  · rfl

/-! ## Reading digits -/

/-- Two digits are those of one byte only. -/
theorem ofNat_eq_iff (hn : n < 16) (hm : m < 16) {a : UInt8} :
    UInt8.ofNat (16 * n + m) = a ↔ n = a.toNat / 16 ∧ m = a.toNat % 16 := by
  have := a.toNat_lt
  rw [← UInt8.toNat_inj, UInt8.toNat_ofNat']
  omega

/-- Digits are read as the bytes that they are written for, small letters for capital ones. -/
theorem decodePairs_eq_ok_iff : decodePairs t = .ok b ↔ t.map lower = encodeText b := by
  induction t using decodePairs.induct generalizing b with
  | case1 => cases b <;> simp [decodePairs, encodeText]
  | case2 c => cases b <;> simp [decodePairs, encodeText]
  | case3 hi lo r n m hlo hhi ih =>
    cases b with
    | nil => cases hr : decodePairs r <;> simp [decodePairs, encodeText, hhi, hlo, hr, Except.map]
    | cons a b =>
      have hread : decodePairs (hi :: lo :: r) = .ok (a :: b) ↔
          UInt8.ofNat (16 * n + m) = a ∧ decodePairs r = .ok b := by
        cases hr : decodePairs r <;> simp [decodePairs, hhi, hlo, hr, Except.map]
      have hn := (value?_eq_some_iff.1 hhi).1
      have hm := (value?_eq_some_iff.1 hlo).1
      simp only [hread, ih, ofNat_eq_iff hn hm, encodeText, List.map_cons, List.cons.injEq,
        lower_eq_digit_iff hhi (high_lt a), lower_eq_digit_iff hlo (low_lt a), and_assoc]
  | case4 hi lo r h =>
    cases b with
    | nil => simp [decodePairs, encodeText]
    | cons a b =>
      simp only [decodePairs, encodeText, List.map_cons, List.cons.injEq, reduceCtorEq, false_iff]
      rintro ⟨hhi, hlo, -⟩
      exact h _ _ (value?_of_lower _ (high_lt a) hhi) (value?_of_lower _ (low_lt a) hlo)

/-- Evenly many bytes are digits, or one of them is not and is reported. -/
theorem digits_or_fails (heven : t.length % 2 = 0) :
    (∀ c ∈ t, IsDigit c) ∧ (∃ b, decodePairs t = .ok b) ∨
      (∃ c ∈ t, ¬ IsDigit c) ∧ decodePairs t = .error .nonHexCharacter := by
  induction t using decodePairs.induct with
  | case1 => exact Or.inl ⟨by simp, [], rfl⟩
  | case2 c => simp at heven
  | case3 hi lo r n m hlo hhi ih =>
    have hhigh : IsDigit hi := by simp [isDigit_iff_isSome_value?, hhi]
    have hlow : IsDigit lo := by simp [isDigit_iff_isSome_value?, hlo]
    rcases ih (by simp only [List.length_cons] at heven; omega) with ⟨hall, b, hr⟩ | ⟨⟨c, hc, hbad⟩, hr⟩
    · refine Or.inl ⟨?_, UInt8.ofNat (16 * n + m) :: b, ?_⟩
      · simpa [hhigh, hlow] using hall
      · simp [decodePairs, hhi, hlo, hr, Except.map]
    · refine Or.inr ⟨⟨c, by simp [hc], hbad⟩, ?_⟩
      simp [decodePairs, hhi, hlo, hr, Except.map]
  | case4 hi lo r h =>
    refine Or.inr ⟨?_, by simp [decodePairs]⟩
    by_cases hhigh : IsDigit hi
    · refine ⟨lo, by simp, fun hlow => ?_⟩
      obtain ⟨n, hn⟩ := Option.isSome_iff_exists.1 (isDigit_iff_isSome_value?.1 hhigh)
      obtain ⟨m, hm⟩ := Option.isSome_iff_exists.1 (isDigit_iff_isSome_value?.1 hlow)
      exact h n m hn hm
    · exact ⟨hi, by simp, hhigh⟩

/-! ## Reading texts -/

/-- What is reported of a text with this body, if it cannot be read. -/
def fault? (body : Bytes) : Option HexError :=
  if body.length % 2 = 1 then some .oddLength
  else if body.all (IsDigit ·) then none
  else some .nonHexCharacter

theorem fault?_eq_none_iff : fault? t = none ↔ t.length % 2 = 0 ∧ ∀ c ∈ t, IsDigit c := by
  unfold fault?
  split
  · rename_i hodd
    simp [hodd]
  · rename_i hodd
    have heven : t.length % 2 = 0 := by omega
    split <;> simp_all

theorem fault?_eq_oddLength_iff : fault? t = some .oddLength ↔ t.length % 2 = 1 := by
  unfold fault?
  split
  · rename_i hodd
    simp [hodd]
  · rename_i hodd
    split <;> simp [hodd]

theorem fault?_eq_nonHexCharacter_iff :
    fault? t = some .nonHexCharacter ↔ t.length % 2 = 0 ∧ ∃ c ∈ t, ¬ IsDigit c := by
  unfold fault?
  split
  · rename_i hodd
    simp [hodd]
  · rename_i hodd
    have heven : t.length % 2 = 0 := by omega
    split <;> simp_all

/-- A text is read as the bytes for which its body is written. -/
theorem decodeText_eq_ok_iff : decodeText t = .ok b ↔ (dropMarker t).map lower = encodeText b := by
  rw [← decodePairs_eq_ok_iff, decodeText]
  by_cases heven : (dropMarker t).length % 2 = 0
  · simp only [if_pos heven]
  · simp only [if_neg heven, reduceCtorEq, decodePairs_eq_ok_iff, false_iff]
    intro h
    have hlength := congrArg List.length h
    simp only [List.length_map, length_encodeText] at hlength
    omega

theorem read_or_fails (t : Bytes) :
    fault? (dropMarker t) = none ∧ (∃ b, decodeText t = .ok b) ∨
      ∃ e, fault? (dropMarker t) = some e ∧ decodeText t = .error e := by
  by_cases heven : (dropMarker t).length % 2 = 0
  · rcases digits_or_fails heven with ⟨hall, b, hr⟩ | ⟨⟨c, hc, hbad⟩, hr⟩
    · exact Or.inl ⟨fault?_eq_none_iff.2 ⟨heven, hall⟩, b, by simp [decodeText, heven, hr]⟩
    · have hnot : ¬ (dropMarker t).all (IsDigit ·) := fun hall =>
        hbad (of_decide_eq_true (List.all_eq_true.1 hall c hc))
      have hone : (dropMarker t).length % 2 ≠ 1 := by omega
      exact Or.inr ⟨.nonHexCharacter, by rw [fault?, if_neg hone, if_neg hnot],
        by simp [decodeText, heven, hr]⟩
  · have hodd : (dropMarker t).length % 2 = 1 := by omega
    exact Or.inr ⟨.oddLength, by simp [fault?, hodd], by simp [decodeText, hodd]⟩

theorem exists_decodeText_iff : (∃ b, decodeText t = .ok b) ↔ fault? (dropMarker t) = none := by
  rcases read_or_fails t with ⟨hnone, hread⟩ | ⟨e, hfault, hread⟩
  · simp only [hnone, hread]
  · simp [hfault, hread]

theorem decodeText_eq_error_iff : decodeText t = .error e ↔ fault? (dropMarker t) = some e := by
  rcases read_or_fails t with ⟨hnone, b, hread⟩ | ⟨e', hfault, hread⟩
  · simp [hnone, hread]
  · simp [hfault, hread]

/-! ## Numbers -/

/-- The number that digits spell, the first one most significant. -/
def number (t : Bytes) : Nat := t.foldl (fun n c => 16 * n + place c) 0

/-- Two digits of a byte at a time, after what has been read. -/
theorem foldl_encodeText (b : Bytes) (n : Nat) :
    (encodeText b).foldl (fun n c => 16 * n + digits.idxOf c) n =
      b.foldl (fun n d => 256 * n + d.toNat) n := by
  induction b generalizing n with
  | nil => rfl
  | cons a b ih =>
    simp only [encodeText, List.foldl_cons, ih, idxOf_digit (high_lt a), idxOf_digit (low_lt a)]
    congr 1
    omega

/-- Digits spell the number of the bytes that they are read as. -/
theorem number_of_map_lower (h : t.map lower = encodeText b) : number t = Radix.ofBigEndian b := by
  have hsmall : number t = (t.map lower).foldl (fun n c => 16 * n + digits.idxOf c) 0 := by
    rw [List.foldl_map]
    rfl
  rw [hsmall, h]
  exact foldl_encodeText b 0

/-! ## Bytes read back from their text -/

theorem utf8EncodeChar_digit :
    n < 16 → String.utf8EncodeChar (Char.ofUInt8 (digit n)) = [digit n] := by
  revert n
  decide

theorem utf8EncodeChar_of_mem_digits (h : c ∈ digits) :
    String.utf8EncodeChar (Char.ofUInt8 c) = [c] := by
  obtain ⟨n, hn, rfl⟩ := exists_digit_of_mem_digits h
  exact utf8EncodeChar_digit hn

/-- Digits are characters of one byte. -/
theorem utf8_encode (b : Bytes) : utf8 (encode b) = encodeText b := by
  have hflat : ∀ t : Bytes, (∀ c ∈ t, c ∈ digits) →
      (t.map Char.ofUInt8).flatMap String.utf8EncodeChar = t := by
    intro t ht
    induction t with
    | nil => rfl
    | cons c t ih =>
      rw [List.map_cons, List.flatMap_cons, utf8EncodeChar_of_mem_digits (ht c (by simp)),
        ih fun d hd => ht d (by simp [hd])]
      rfl
  rw [encode, utf8_ofList]
  exact hflat _ fun c hc => mem_digits_of_mem_encodeText hc

theorem decodeText_encodeText (b : Bytes) : decodeText (encodeText b) = .ok b := by
  have hdigits := isDigit_of_map_lower (map_lower_encodeText b)
  rw [decodeText_eq_ok_iff, dropMarker_of_digits hdigits, map_lower_encodeText]

theorem decode_encode (b : Bytes) : decode (encode b) = .ok b := by
  rw [decode, utf8_encode, decodeText_encodeText]

/-- No text of bytes starts with a marker. -/
theorem dropMarker_encode (b : Bytes) : dropMarker (utf8 (encode b)) = utf8 (encode b) := by
  rw [utf8_encode]
  exact dropMarker_of_digits (isDigit_of_map_lower (map_lower_encodeText b))

theorem decode_smallMarker_encode (b : Bytes) : decode ("0x" ++ encode b) = .ok b := by
  rw [decode, utf8_append, utf8_encode, decodeText_eq_ok_iff, dropMarker_small, map_lower_encodeText]

theorem decode_capitalMarker_encode (b : Bytes) : decode ("0X" ++ encode b) = .ok b := by
  rw [decode, utf8_append, utf8_encode, decodeText_eq_ok_iff, dropMarker_capital,
    map_lower_encodeText]

/-- What has been read is written in small letters, without the marker. -/
theorem utf8_encode_of_decodeText (h : decodeText t = .ok b) :
    utf8 (encode b) = (dropMarker t).map lower := by
  rw [utf8_encode]
  exact (decodeText_eq_ok_iff.1 h).symm

theorem digit_ne_newline : n < 16 → Char.ofUInt8 (digit n) ≠ '\n' := by
  revert n
  decide

/-- No text of bytes goes over the end of its line. -/
theorem newline_not_mem_encode (b : Bytes) : '\n' ∉ (encode b).toList := by
  rw [encode, String.toList_ofList]
  intro h
  obtain ⟨c, hc, hchar⟩ := List.mem_map.1 h
  obtain ⟨n, hn, rfl⟩ := exists_digit_of_mem_digits (mem_digits_of_mem_encodeText hc)
  exact digit_ne_newline hn hchar

/-! ## Both ways -/

/-- **Reading takes back what is written, and writing what is read.** All bytes are read from their
text, with either marker in front of it or with none: the text itself has no marker to be dropped. Any
bytes are read as a text if, without the one marker that they may start with, they are evenly many
digits of either case; these are what is written for the bytes read, in small letters. Otherwise an odd
length is reported, whatever the bytes are, and then one that is no digit. -/
theorem codec_exact :
    (∀ b : Bytes, decode (encode b) = .ok b ∧ decode ("0x" ++ encode b) = .ok b ∧
      decode ("0X" ++ encode b) = .ok b ∧ dropMarker (utf8 (encode b)) = utf8 (encode b)) ∧
    (∀ s, decode s = decodeText (utf8 s)) ∧
    (∀ t, dropMarker (utf8 "0x" ++ t) = t ∧ dropMarker (utf8 "0X" ++ t) = t ∧
      (¬ utf8 "0x" <+: t → ¬ utf8 "0X" <+: t → dropMarker t = t)) ∧
    ∀ t : Bytes,
      let body := dropMarker t
      let letters := utf8 "0123456789abcdefABCDEF"
      ((∃ b, decodeText t = .ok b) ↔ body.length % 2 = 0 ∧ ∀ c ∈ body, c ∈ letters) ∧
      (∀ b, decodeText t = .ok b → utf8 (encode b) = body.map lower) ∧
      (decodeText t = .error .oddLength ↔ body.length % 2 = 1) ∧
      (decodeText t = .error .nonHexCharacter ↔ body.length % 2 = 0 ∧ ∃ c ∈ body, c ∉ letters) := by
  refine ⟨fun b => ?_, fun s => rfl, fun t => ?_, fun t => ?_⟩
  · exact ⟨decode_encode b, decode_smallMarker_encode b, decode_capitalMarker_encode b,
      dropMarker_encode b⟩
  · exact ⟨dropMarker_small t, dropMarker_capital t, dropMarker_of_unmarked⟩
  intro body letters
  simp only [body, letters, ← isDigit_iff_mem]
  refine ⟨?_, fun b => utf8_encode_of_decodeText, ?_, ?_⟩
  · rw [exists_decodeText_iff, fault?_eq_none_iff]
  · rw [decodeText_eq_error_iff, fault?_eq_oddLength_iff]
  · rw [decodeText_eq_error_iff, fault?_eq_nonHexCharacter_iff]

/-- Capitals after a marker, a marker alone, a second marker, a byte that is no digit in an odd number,
and a character outside ASCII, which has two bytes. -/
theorem codec_exact_marked :
    let b : Bytes := [0x0a, 0xbc]
    let small := utf8 "0abc"
    decodeText (utf8 "0X0aBc") = .ok b ∧ utf8 (encode b) = small ∧
      ¬ utf8 "0x" <+: small ∧ ¬ utf8 "0X" <+: small ∧ dropMarker small = small ∧
      (∃ b, decodeText (utf8 "0x") = .ok b) ∧
      decodeText (utf8 "0x0x12") = .error .nonHexCharacter ∧
      decodeText (utf8 "0x12g") = .error .oddLength ∧
      decodeText (utf8 "é") = .error .nonHexCharacter := by
  intro b small
  obtain ⟨-, -, hmarkers, htexts⟩ := codec_exact
  have hread : decodeText (utf8 "0X0aBc") = .ok b := decodeText_eq_ok_iff.2 (by decide)
  have hsmall : ¬ utf8 "0x" <+: small := by decide
  have hcapital : ¬ utf8 "0X" <+: small := by decide
  refine ⟨hread, ?_, hsmall, hcapital, (hmarkers small).2.2 hsmall hcapital, ?_, ?_, ?_, ?_⟩
  · exact ((htexts _).2.1 b hread).trans (by decide)
  · exact (htexts _).1.2 ⟨by decide, fun c hc => nomatch hc⟩
  · exact (htexts _).2.2.2.2 ⟨by decide, 0x78, by decide, by decide⟩
  · exact (htexts _).2.2.1.2 (by decide)
  · exact (htexts _).2.2.2.2 ⟨by decide, 0xc3, by decide, by decide⟩

end BlobSigner.Hex
