import BlobSigner.Proofs.Bn254.Encoding
import BlobSigner.Proofs.Hex
import BlobSigner.SigningKey
/-!
# Texts of signing keys

A key has one text of sixty-four small digits, and all its texts are this one with a marker or with
capital letters (`parseText_eq_ok_iff`). What is no text of a key is refused for the first fault that
it has (`parse_or_fails`); nothing else about the text counts, not even whether its bytes are those of
characters.
-/
namespace BlobSigner.SigningKey

open Hex (dropMarker lower encodeText IsDigit number)

variable {t b body : Bytes} {k : Fr} {e : FormError}

/-! ## Faults -/

/-- What is reported of a text with this body, if it is no key: the first fault in this order. -/
def fault? (body : Bytes) : Option FormError :=
  match Hex.fault? body with
  | some e => some (.hex e)
  | none =>
    if body.length ≠ 64 then some .length
    else if r ≤ number body then some .notCanonical
    else if number body = 0 then some .zero
    else none

theorem fault?_of_digits (h : Hex.fault? body = none) :
    fault? body =
      if body.length ≠ 64 then some .length
      else if r ≤ number body then some .notCanonical
      else if number body = 0 then some .zero
      else none := by
  simp only [fault?, h]

theorem fault?_eq_none_iff :
    fault? body = none ↔
      body.length = 64 ∧ (∀ c ∈ body, IsDigit c) ∧ 1 ≤ number body ∧ number body < r := by
  cases h : Hex.fault? body with
  | some e =>
    have hbad : ¬ (body.length % 2 = 0 ∧ ∀ c ∈ body, IsDigit c) := by
      rw [← Hex.fault?_eq_none_iff, h]
      exact nofun
    simp only [fault?, h, reduceCtorEq, false_iff]
    rintro ⟨hlength, hall, -⟩
    exact hbad ⟨by omega, hall⟩
  | none =>
    obtain ⟨-, hall⟩ := Hex.fault?_eq_none_iff.1 h
    rw [fault?_of_digits h]
    split
    · simp_all
    · split
      · simp only [reduceCtorEq, false_iff]
        omega
      · split
        · simp_all
        · simp only [true_iff]
          exact ⟨by omega, hall, by omega, by omega⟩

/-! ## Keys as bytes -/

theorem ofBytes_of_length_ne (h : b.length ≠ 32) : ofBytes b = .error .length := if_pos h

theorem ofBytes_of_scalar (h : Fr.ofBigEndian b = .ok k) :
    ofBytes b = if k = 0 then .error .zero else .ok k := by
  have hlength := (Fr.ofBigEndian_eq_ok_iff.1 h).1
  simp only [ofBytes, hlength, h, ne_eq, not_true_eq_false, if_false]

theorem ofBytes_of_not_lt (hlength : b.length = 32) (h : ¬ Radix.ofBigEndian b < r) :
    ofBytes b = .error .notCanonical := by
  simp only [ofBytes, hlength, Fr.ofBigEndian_of_not_lt hlength h, ne_eq, not_true_eq_false, if_false]

/-- The bytes of a number below the order, as a scalar. -/
theorem scalar_of_lt (hlength : b.length = 32) (h : Radix.ofBigEndian b < r) :
    Fr.ofBigEndian b = .ok ⟨Radix.ofBigEndian b, h⟩ :=
  Fr.ofBigEndian_eq_ok_iff.2 ⟨hlength, rfl⟩

/-- The bytes of a key are its digits. -/
theorem ofBytes_eq_ok_iff : ofBytes b = .ok k ↔ k ≠ 0 ∧ b = Radix.bigEndian 32 k.val := by
  constructor
  · intro h
    by_cases hlength : b.length = 32
    · by_cases hlt : Radix.ofBigEndian b < r
      · rw [ofBytes_of_scalar (scalar_of_lt hlength hlt)] at h
        split at h
        · cases h
        · rename_i hne
          cases h
          refine ⟨hne, ?_⟩
          rw [← hlength, Radix.bigEndian_ofBigEndian]
      · rw [ofBytes_of_not_lt hlength hlt] at h
        cases h
    · rw [ofBytes_of_length_ne hlength] at h
      cases h
  · rintro ⟨hne, rfl⟩
    have hread : Fr.ofBigEndian (Radix.bigEndian 32 k.val) = .ok k := by
      rw [Fr.ofBigEndian_eq_ok_iff, Radix.ofBigEndian_bigEndian, Nat.mod_eq_of_lt k.val_lt_digits]
      exact ⟨Radix.length_bigEndian .., rfl⟩
    rw [ofBytes_of_scalar hread, if_neg hne]

/-! ## Keys as texts -/

/-- A text of a key is its digits, with or without a marker, in letters of either case. -/
theorem parseText_eq_ok_iff :
    parseText t = .ok k ↔
      k ≠ 0 ∧ (dropMarker t).map lower = encodeText (Radix.bigEndian 32 k.val) := by
  rw [← Hex.decodeText_eq_ok_iff]
  cases h : Hex.decodeText t with
  | error e => simp [parseText, h]
  | ok b => simp only [parseText, h, ofBytes_eq_ok_iff, Except.ok.injEq]

theorem ne_zero_of_parse {text : String} (h : parse text = .ok k) : k ≠ 0 :=
  (parseText_eq_ok_iff.1 h).1

theorem parse_encode (h : k ≠ 0) : parse (Hex.encode (Radix.bigEndian 32 k.val)) = .ok k := by
  have hdigits := Hex.isDigit_of_map_lower (Hex.map_lower_encodeText (Radix.bigEndian 32 k.val))
  rw [parse, Hex.utf8_encode, parseText_eq_ok_iff, Hex.dropMarker_of_digits hdigits,
    Hex.map_lower_encodeText]
  exact ⟨h, rfl⟩

/-- A text is that of a key, or it has a fault, and the first one is reported. -/
theorem parse_or_fails (t : Bytes) :
    fault? (dropMarker t) = none ∧
        (∃ k, parseText t = .ok k ∧ k.val = number (dropMarker t)) ∨
      ∃ e, fault? (dropMarker t) = some e ∧ parseText t = .error e := by
  rcases Hex.read_or_fails t with ⟨hnone, b, hread⟩ | ⟨e, hfault, hread⟩
  · have hparse : parseText t = ofBytes b := by simp only [parseText, hread]
    have htext := Hex.decodeText_eq_ok_iff.1 hread
    have hlength : (dropMarker t).length = 2 * b.length := by
      rw [← Hex.length_encodeText, ← htext, List.length_map]
    -- The digits are bytes now, and these are checked in the same order.
    rw [fault?_of_digits hnone, Hex.number_of_map_lower htext, hparse, hlength]
    by_cases hlen : b.length = 32
    · by_cases hlt : Radix.ofBigEndian b < r
      · rw [ofBytes_of_scalar (scalar_of_lt hlen hlt)]
        by_cases hzero : Radix.ofBigEndian b = 0
        · have hk : (⟨Radix.ofBigEndian b, hlt⟩ : Fr) = 0 := Residue.ext hzero
          have hr : r ≠ 0 := by decide
          exact Or.inr ⟨.zero, by simp [hlen, hzero, hr], if_pos hk⟩
        · have hk : (⟨Radix.ofBigEndian b, hlt⟩ : Fr) ≠ 0 := fun h => hzero (congrArg Residue.val h)
          exact Or.inl ⟨by simp [hlen, hlt, hzero], _, if_neg hk, rfl⟩
      · exact Or.inr ⟨.notCanonical, by simp [hlen, Nat.not_lt.1 hlt], ofBytes_of_not_lt hlen hlt⟩
    · have hlong : 2 * b.length ≠ 64 := by omega
      exact Or.inr ⟨.length, if_pos hlong, ofBytes_of_length_ne hlen⟩
  · exact Or.inr ⟨.hex e, by simp only [fault?, hfault], by simp only [parseText, hread]⟩

theorem val_of_parseText (h : parseText t = .ok k) : k.val = number (dropMarker t) := by
  rcases parse_or_fails t with ⟨-, k', hread, hvalue⟩ | ⟨e, -, hread⟩
  · cases h.symm.trans hread
    exact hvalue
  · cases h.symm.trans hread

theorem exists_parseText_iff : (∃ k, parseText t = .ok k) ↔ fault? (dropMarker t) = none := by
  rcases parse_or_fails t with ⟨hnone, k, hread, -⟩ | ⟨e, hfault, hread⟩
  · simp [hnone, hread]
  · simp [hfault, hread]

theorem parseText_eq_error_iff : parseText t = .error e ↔ fault? (dropMarker t) = some e := by
  rcases parse_or_fails t with ⟨hnone, k, hread, -⟩ | ⟨e', hfault, hread⟩
  · simp [hnone, hread]
  · simp [hfault, hread]

/-- Keys are told apart by their texts without marker and capitals. -/
theorem key_eq_iff {t' : Bytes} {k' : Fr} (h : parseText t = .ok k) (h' : parseText t' = .ok k') :
    k = k' ↔ (dropMarker t).map lower = (dropMarker t').map lower := by
  constructor
  · rintro rfl
    rw [(parseText_eq_ok_iff.1 h).2, (parseText_eq_ok_iff.1 h').2]
  · intro heq
    have hread : parseText t = .ok k' := by
      rw [parseText_eq_ok_iff, heq]
      exact parseText_eq_ok_iff.1 h'
    exact Except.ok.inj (h.symm.trans hread)

/-- **The texts of keys are exactly these.** Without a marker, if there is one, a text has sixty-four
digits of either case that spell a number from one up to the order, which is the key; so two texts are
those of one key if they differ in the marker and in capital letters only. Every other text is refused
for its first fault: an odd length, a byte that is no digit, another length, a number too large, and
zero. All this holds of any bytes, those of texts among them; of two markers the second one stays. -/
theorem text_exact :
    (∀ s, parse s = parseText (utf8 s)) ∧
    (∀ t, dropMarker (utf8 "0x" ++ t) = t ∧ dropMarker (utf8 "0X" ++ t) = t ∧
      (¬ utf8 "0x" <+: t → ¬ utf8 "0X" <+: t → dropMarker t = t)) ∧
    (∀ t : Bytes,
      let body := dropMarker t
      ((∃ k, parseText t = .ok k) ↔
        body.length = 64 ∧ (∀ c ∈ body, IsDigit c) ∧ 1 ≤ number body ∧ number body < r) ∧
      (∀ k, parseText t = .ok k → k.val = number body) ∧
      ∀ e, parseText t = .error e ↔ fault? body = some e) ∧
    ∀ (t t' : Bytes) (k k' : Fr), parseText t = .ok k → parseText t' = .ok k' →
      (k = k' ↔ (dropMarker t).map lower = (dropMarker t').map lower) := by
  refine ⟨fun s => rfl, fun t => ?_, fun t => ?_, fun t t' k k' => key_eq_iff⟩
  · exact ⟨Hex.dropMarker_small t, Hex.dropMarker_capital t, Hex.dropMarker_of_unmarked⟩
  refine ⟨?_, fun k => val_of_parseText, fun e => parseText_eq_error_iff⟩
  rw [exists_parseText_iff, fault?_eq_none_iff]

/-- The largest key, in capitals after a marker and in small letters without one; the order itself is
no key. -/
theorem text_exact_largest :
    let small := utf8 "30644e72e131a029b85045b68181585d2833e84879b9709143e1f593f0000000"
    let marked := utf8 "0X30644E72E131A029B85045B68181585D2833E84879B9709143E1F593F0000000"
    let order := utf8 "30644e72e131a029b85045b68181585d2833e84879b9709143e1f593f0000001"
    ∃ k : Fr, k.val = r - 1 ∧ parseText small = .ok k ∧ parseText marked = .ok k ∧
      parseText order = .error .notCanonical := by
  intro small marked order
  obtain ⟨-, -, htext, hsame⟩ := text_exact
  obtain ⟨k, hk⟩ := (htext small).1.2 (by decide +kernel)
  obtain ⟨k', hk'⟩ := (htext marked).1.2 (by decide +kernel)
  have hvalue : k.val = r - 1 := ((htext small).2.1 k hk).trans (by decide +kernel)
  have hequal : k = k' := (hsame small marked k k' hk hk').2 (by decide +kernel)
  subst hequal
  exact ⟨k, hvalue, hk, hk', ((htext order).2.2 _).2 (by decide +kernel)⟩

end BlobSigner.SigningKey
