import BlobSigner.Proofs.Bn254.Encoding
import BlobSigner.Proofs.Bn254.Order
/-!
# What is read as a commitment

A commitment has no marks, so two canonical coordinates that solve the equation of the curve are all
there is to one (`decode_eq_ok_iff`). The last of the checks, for the subgroup, has nothing left to
refuse: the curve has just the order of the subgroup (`G1.inSubgroup?_of_onCurve`). All other bytes
are refused by the first check that they do not pass (`decode_eq_error_iff`).
-/
namespace BlobSigner.Commitment

variable {b : Bytes} {P : G1} {x y : Fq}

/-! ## Coordinates in bytes -/

/-- The bytes hold two coordinates below the modulus, and nothing more. -/
structure Canonical (b : Bytes) : Prop where
  whole : b.length = 64
  abscissa : Radix.ofLittleEndian (b.take 32) < q
  ordinate : Radix.ofLittleEndian (b.drop 32) < q

/-- The numbers in the two halves solve the equation of the curve. -/
def Solves (b : Bytes) : Prop :=
  Radix.ofLittleEndian (b.drop 32) ^ 2 ≡ Radix.ofLittleEndian (b.take 32) ^ 3 + 3 [MOD q]

instance : Decidable (Canonical b) :=
  decidable_of_iff (b.length = 64 ∧ Radix.ofLittleEndian (b.take 32) < q ∧
      Radix.ofLittleEndian (b.drop 32) < q)
    ⟨fun ⟨whole, abscissa, ordinate⟩ => ⟨whole, abscissa, ordinate⟩,
      fun ⟨whole, abscissa, ordinate⟩ => ⟨whole, abscissa, ordinate⟩⟩

instance : Decidable (Solves b) := inferInstanceAs (Decidable (_ ≡ _ [MOD q]))

theorem length_take_of_whole (h : b.length = 64) : (b.take 32).length = 32 := by simp [h]

theorem length_drop_of_whole (h : b.length = 64) : (b.drop 32).length = 32 := by simp [h]

/-- The bytes of two coordinates are canonical, and hold just these. -/
theorem canonical_append (x y : Fq) :
    let b := Radix.littleEndian 32 x.val ++ Radix.littleEndian 32 y.val
    Canonical b ∧ Radix.ofLittleEndian (b.take 32) = x.val ∧
      Radix.ofLittleEndian (b.drop 32) = y.val := by
  intro b
  have htake : b.take 32 = Radix.littleEndian 32 x.val := List.take_left' (by simp)
  have hdrop : b.drop 32 = Radix.littleEndian 32 y.val := List.drop_left' (by simp)
  have hlen : b.length = 64 := by simp [b]
  have hx := (Radix.eq_littleEndian_iff (length_take_of_whole hlen) x.val_lt_digits).1 htake
  have hy := (Radix.eq_littleEndian_iff (length_drop_of_whole hlen) y.val_lt_digits).1 hdrop
  exact ⟨⟨hlen, hx ▸ x.val_lt, hy ▸ y.val_lt⟩, hx, hy⟩

/-- Canonical bytes are those of the two coordinates that they hold. -/
theorem Canonical.exists_coordinates (h : Canonical b) :
    ∃ x y : Fq, b = Radix.littleEndian 32 x.val ++ Radix.littleEndian 32 y.val := by
  refine ⟨⟨_, h.abscissa⟩, ⟨_, h.ordinate⟩, ?_⟩
  have hx := (Radix.eq_littleEndian_iff (length_take_of_whole h.whole)
    (Fq.val_lt_digits ⟨_, h.abscissa⟩)).2 rfl
  have hy := (Radix.eq_littleEndian_iff (length_drop_of_whole h.whole)
    (Fq.val_lt_digits ⟨_, h.ordinate⟩)).2 rfl
  rw [← hx, ← hy, List.take_append_drop]

theorem solves_append_iff :
    Solves (Radix.littleEndian 32 x.val ++ Radix.littleEndian 32 y.val) ↔
      (G1.affine x y).OnCurve := by
  obtain ⟨-, hx, hy⟩ := canonical_append x y
  rw [Solves, hx, hy, G1.onCurve_affine_iff_modEq]

/-! ## The checks -/

/-- Two canonical coordinates are refused only off the curve. -/
theorem decode_append (x y : Fq) :
    decode (Radix.littleEndian 32 x.val ++ Radix.littleEndian 32 y.val) =
      if (G1.affine x y).OnCurve then .ok (.affine x y) else .error .notOnCurve := by
  have hlen : (Radix.littleEndian 32 x.val ++ Radix.littleEndian 32 y.val).length = 64 := by simp
  rw [decode, if_neg (not_not.2 hlen), List.take_left' (by simp), List.drop_left' (by simp),
    Fq.ofLittleEndian_eq_ok_iff.2 rfl, Fq.ofLittleEndian_eq_ok_iff.2 rfl]
  by_cases h : (G1.affine x y).OnCurve
  · simp only [if_pos h, G1.inSubgroup?_of_onCurve h]
  · simp only [if_neg h]

theorem decode_of_not_lt (hlen : b.length = 64)
    (h : q ≤ Radix.ofLittleEndian (b.take 32) ∨ q ≤ Radix.ofLittleEndian (b.drop 32)) :
    decode b = .error (.coordinate .notCanonical) := by
  have hx := length_take_of_whole hlen
  have hy := length_drop_of_whole hlen
  rw [decode, if_neg (not_not.2 hlen)]
  by_cases hlt : Radix.ofLittleEndian (b.take 32) < q
  · have hge := h.resolve_left (Nat.not_le.2 hlt)
    rw [Fq.ofLittleEndian_of_lt hx hlt, Fq.ofLittleEndian_of_not_lt hy (Nat.not_lt.2 hge)]
  · rw [Fq.ofLittleEndian_of_not_lt hx hlt]

/-- Why bytes are refused: the first of the checks that they do not pass. -/
inductive Refused (b : Bytes) : Error → Prop where
  | length : b.length ≠ 64 → Refused b (.length b.length)
  | coordinate : b.length = 64 →
      q ≤ Radix.ofLittleEndian (b.take 32) ∨ q ≤ Radix.ofLittleEndian (b.drop 32) →
      Refused b (.coordinate .notCanonical)
  | notOnCurve : Canonical b → ¬ Solves b → Refused b .notOnCurve

theorem decode_of_refused {e : Error} (h : Refused b e) : decode b = .error e := by
  cases h with
  | length hlen => rw [decode, if_pos hlen]
  | coordinate hlen hge => exact decode_of_not_lt hlen hge
  | notOnCurve hcanonical hunsolved =>
    obtain ⟨x, y, rfl⟩ := hcanonical.exists_coordinates
    rw [decode_append, if_neg (solves_append_iff.not.1 hunsolved)]

theorem canonical_or_refused (b : Bytes) :
    Canonical b ∨ Refused b (.length b.length) ∨ Refused b (.coordinate .notCanonical) := by
  by_cases hlen : b.length = 64
  · by_cases hge : q ≤ Radix.ofLittleEndian (b.take 32) ∨ q ≤ Radix.ofLittleEndian (b.drop 32)
    · exact Or.inr (Or.inr (.coordinate hlen hge))
    · exact Or.inl ⟨hlen, by omega, by omega⟩
  · exact Or.inr (Or.inl (.length hlen))

/-- **A commitment is read from the bytes of a point on the curve, and from no others.** -/
theorem decode_eq_ok_iff :
    decode b = .ok P ↔ ∃ x y : Fq, P = .affine x y ∧ P.OnCurve ∧
      b = Radix.littleEndian 32 x.val ++ Radix.littleEndian 32 y.val := by
  constructor
  · intro h
    obtain ⟨hcurve, -, x, y, hP, hx, hy⟩ := affine_of_decode h
    exact ⟨x, y, hP, hcurve, by rw [← hx, ← hy, List.take_append_drop]⟩
  · rintro ⟨x, y, rfl, hcurve, rfl⟩
    rw [decode_append, if_pos hcurve]

theorem exists_decode_iff : (∃ P, decode b = .ok P) ↔ Canonical b ∧ Solves b := by
  constructor
  · rintro ⟨P, h⟩
    obtain ⟨x, y, rfl, hcurve, rfl⟩ := decode_eq_ok_iff.1 h
    exact ⟨(canonical_append x y).1, solves_append_iff.2 hcurve⟩
  · rintro ⟨hcanonical, hsolved⟩
    obtain ⟨x, y, rfl⟩ := hcanonical.exists_coordinates
    exact ⟨_, decode_eq_ok_iff.2 ⟨x, y, rfl, solves_append_iff.1 hsolved, rfl⟩⟩

theorem decode_eq_error_iff {e : Error} : decode b = .error e ↔ Refused b e := by
  constructor
  · intro h
    have hsame : ∀ e', Refused b e' → Refused b e := by
      intro e' hrefused
      cases (decode_of_refused hrefused).symm.trans h
      exact hrefused
    rcases canonical_or_refused b with hcanonical | hrefused | hrefused
    · by_cases hsolved : Solves b
      · obtain ⟨P, hP⟩ := exists_decode_iff.2 ⟨hcanonical, hsolved⟩
        cases hP.symm.trans h
      · exact hsame _ (.notOnCurve hcanonical hsolved)
    · exact hsame _ hrefused
    · exact hsame _ hrefused
  · exact decode_of_refused

/-- The check that is reported. -/
theorem check?_of_refused {e : Error} (h : Refused b e) :
    ¬ Canonical b ∧ e.check? = some .malformed ∨
      Canonical b ∧ ¬ Solves b ∧ e.check? = some .notOnCurve := by
  cases h with
  | length hlen => exact Or.inl ⟨fun hcanonical => hlen hcanonical.whole, rfl⟩
  | coordinate _ hge =>
    refine Or.inl ⟨fun hcanonical => ?_, rfl⟩
    have hx := hcanonical.abscissa
    have hy := hcanonical.ordinate
    omega
  | notOnCurve hcanonical hunsolved => exact Or.inr ⟨hcanonical, hunsolved, rfl⟩

/-! ## The grammar -/

/-- **Commitments are read by their grammar.** Bytes are read exactly if they hold two coordinates
below the modulus that solve the equation of the curve. What is read is the point with these
coordinates, so it is not infinity, and its bytes are theirs, so no other bytes are read as it. Bytes
that are not canonical are malformed, all others that are refused are off the curve, and none is
refused for the subgroup. -/
theorem grammar_exact (b : Bytes) :
    ((∃ P, decode b = .ok P) ↔ Canonical b ∧ Solves b) ∧
    (∀ P, decode b = .ok P → P.OnCurve ∧ ∃ x y : Fq, P = .affine x y ∧
      x.val = Radix.ofLittleEndian (b.take 32) ∧ y.val = Radix.ofLittleEndian (b.drop 32) ∧
      b = Radix.littleEndian 32 x.val ++ Radix.littleEndian 32 y.val) ∧
    (∀ P b', decode b = .ok P → decode b' = .ok P → b' = b) ∧
    ∀ e, decode b = .error e →
      (¬ Canonical b ∧ e.check? = some .malformed ∨
        Canonical b ∧ ¬ Solves b ∧ e.check? = some .notOnCurve) ∧
      e.check? ≠ some .notInSubgroup := by
  refine ⟨exists_decode_iff, ?_, fun P b' h h' => decode_inj h' h, ?_⟩
  · intro P h
    obtain ⟨x, y, rfl, hcurve, rfl⟩ := decode_eq_ok_iff.1 h
    obtain ⟨-, hx, hy⟩ := canonical_append x y
    exact ⟨hcurve, x, y, rfl, hx.symm, hy.symm, rfl⟩
  · intro e h
    have hcheck := check?_of_refused (decode_eq_error_iff.1 h)
    refine ⟨hcheck, ?_⟩
    rcases hcheck with ⟨-, hcheck⟩ | ⟨-, -, hcheck⟩ <;> rw [hcheck] <;> decide

/-- The generator is read, the same ordinate above the modulus is malformed, and another ordinate is
off the curve. -/
theorem grammar_exact_generator :
    let point (y : Nat) : Bytes := Radix.littleEndian 32 1 ++ Radix.littleEndian 32 y
    decode (point 2) = .ok .generator ∧
      (∃ e, decode (point (q + 2)) = .error e ∧ e.check? = some .malformed) ∧
      ∃ e, decode (point 3) = .error e ∧ e.check? = some .notOnCurve := by
  intro point
  have hrefused : ∀ b, ¬ (Canonical b ∧ Solves b) → ∃ e, decode b = .error e := by
    intro b hbad
    cases h : decode b with
    | error e => exact ⟨e, rfl⟩
    | ok P => exact absurd ((grammar_exact b).1.1 ⟨P, h⟩) hbad
  refine ⟨?_, ?_, ?_⟩
  · obtain ⟨hiff, hread, -⟩ := grammar_exact (point 2)
    obtain ⟨P, hP⟩ := hiff.2 (by decide +kernel)
    obtain ⟨-, x, y, rfl, hx, hy, -⟩ := hread P hP
    have hx1 : x = 1 := Residue.ext (hx.trans (by decide +kernel))
    have hy2 : y = 2 := Residue.ext (hy.trans (by decide +kernel))
    rw [hP, hx1, hy2]
    rfl
  · have hbad : ¬ Canonical (point (q + 2)) := by decide +kernel
    obtain ⟨e, he⟩ := hrefused (point (q + 2)) (fun h => hbad h.1)
    obtain ⟨⟨-, hcheck⟩ | ⟨hgood, -⟩, -⟩ := (grammar_exact _).2.2.2 e he
    · exact ⟨e, he, hcheck⟩
    · exact absurd hgood hbad
  · have hgood : Canonical (point 3) := by decide +kernel
    obtain ⟨e, he⟩ := hrefused (point 3) (by decide +kernel)
    obtain ⟨⟨hbad, -⟩ | ⟨-, -, hcheck⟩, -⟩ := (grammar_exact _).2.2.2 e he
    · exact absurd hgood hbad
    · exact ⟨e, he, hcheck⟩

end BlobSigner.Commitment
