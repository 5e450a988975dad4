import BlobSigner.Proofs.Bn254.Encoding
import BlobSigner.Proofs.Request.Process
/-!
# What a signature attests to

The message that is signed has five parts of fixed width, so it tells each of them
(`preimage_eq_iff`); with a commitment from the wire its last two parts are the commitment's own
bytes (`preimage_of_decode`). Hence requests that say different things are signed on different
messages: `preimage_separates`.
-/
namespace BlobSigner

@[simp] theorem length_contractWord (w : UInt64) : (contractWord w).length = 32 := by
  simp [contractWord]

theorem contractWord_inj {w w' : UInt64} : contractWord w = contractWord w' ↔ w = w' := by
  have hbound : ∀ w : UInt64, w.toNat < 256 ^ 8 := fun w => w.toNat_lt
  rw [contractWord, contractWord, List.append_right_inj,
    Radix.bigEndian_inj (hbound w) (hbound w'), UInt64.toNat_inj]

namespace BlobKey

theorem preimage_of_form {k : BlobKey} {P : G1} {x y : Bytes32} (h : P.verifierForm = .ok (x, y)) :
    k.preimage P =
      .ok (k.root.toList ++ contractWord k.epoch ++ contractWord k.quorum ++ x.toList ++ y.toList) := by
  rw [preimage, h]

theorem exists_preimage (k : BlobKey) (P : G1) : ∃ b, k.preimage P = .ok b ∧ b.length = 160 := by
  obtain ⟨⟨x, y⟩, h⟩ := P.exists_verifierForm
  refine ⟨_, preimage_of_form h, ?_⟩
  simp [k.root.length_toList, x.length_toList, y.length_toList]

/-- Parts of fixed width can be told apart. -/
theorem preimage_eq_iff {k k' : BlobKey} {P P' : G1} (hP : P.OnCurve) (hP' : P'.OnCurve) :
    k.preimage P = k'.preimage P' ↔
      k.root = k'.root ∧ k.epoch = k'.epoch ∧ k.quorum = k'.quorum ∧ P = P' := by
  obtain ⟨⟨x, y⟩, hform⟩ := P.exists_verifierForm
  obtain ⟨⟨x', y'⟩, hform'⟩ := P'.exists_verifierForm
  constructor
  · intro h
    rw [preimage_of_form hform, preimage_of_form hform', Except.ok.injEq] at h
    obtain ⟨h, hy⟩ := List.append_inj' h (by rw [y.length_toList, y'.length_toList])
    obtain ⟨h, hx⟩ := List.append_inj' h (by rw [x.length_toList, x'.length_toList])
    obtain ⟨h, hquorum⟩ := List.append_inj' h (by rw [length_contractWord, length_contractWord])
    obtain ⟨hroot, hepoch⟩ := List.append_inj' h (by rw [length_contractWord, length_contractWord])
    refine ⟨Bytes32.ext hroot, contractWord_inj.1 hepoch, contractWord_inj.1 hquorum, ?_⟩
    rw [← G1.verifierForm_inj hP hP', hform, hform', Bytes32.ext hx, Bytes32.ext hy]
  · rintro ⟨hroot, hepoch, hquorum, rfl⟩
    rw [preimage_of_form hform, preimage_of_form hform, hroot, hepoch, hquorum]

/-- A contract reads each coordinate of a commitment from the other end. -/
theorem preimage_of_decode {c : Bytes} {P : G1} (h : Commitment.decode c = .ok P) (k : BlobKey) :
    k.preimage P = .ok (k.root.toList ++
      (List.replicate 24 0 ++ Radix.bigEndian 8 k.epoch.toNat) ++
      (List.replicate 24 0 ++ Radix.bigEndian 8 k.quorum.toNat) ++
      (c.take 32).reverse ++ (c.drop 32).reverse) := by
  obtain ⟨-, -, x, y, rfl, hx, hy⟩ := Commitment.affine_of_decode h
  rw [preimage_of_form (G1.verifierForm_affine x y), hx, hy]
  rfl

end BlobKey

/-- Requests that can be read are signed on one message exactly if they say the same. -/
theorem Request.preimage_eq_iff {limit limit' : UInt64} {r r' : Request} {d d' : Decoded}
    (h : r.Decodes limit d) (h' : r'.Decodes limit' d') :
    d.key.preimage d.commitment = d'.key.preimage d'.commitment ↔
      r.root = r'.root ∧ r.epoch = r'.epoch ∧ r.quorum = r'.quorum ∧ r.commitment = r'.commitment := by
  have hcommitment : d.commitment = d'.commitment ↔ r.commitment = r'.commitment := by
    constructor
    · intro heq
      exact Commitment.decode_inj h.commitment (heq ▸ h'.commitment)
    · intro heq
      exact Except.ok.inj (h.commitment.symm.trans (heq ▸ h'.commitment))
  have hroot : d.key.root = d'.key.root ↔ r.root = r'.root := by
    rw [← h.root, ← h'.root]
    exact ⟨congrArg Bytes32.toList, Bytes32.ext⟩
  rw [BlobKey.preimage_eq_iff (Commitment.affine_of_decode h.commitment).1
    (Commitment.affine_of_decode h'.commitment).1, hcommitment, hroot, h.epoch, h.quorum, h'.epoch,
    h'.quorum]

namespace BlobKey

/-- **A signature attests to one blob with one commitment.** Every message has 160 bytes, and points
on the curve, infinity among them, have one message only if all they are signed with is the same. A
commitment from the wire stands in the message byte by byte, so requests that can be read are signed
on one message exactly if they name the same root, epoch, quorum and commitment. -/
theorem preimage_separates :
    (∀ (k : BlobKey) (P : G1), ∃ b, k.preimage P = .ok b ∧ b.length = 160) ∧
    (∀ (k k' : BlobKey) (P P' : G1), P.OnCurve → P'.OnCurve →
      (k.preimage P = k'.preimage P' ↔
        k.root = k'.root ∧ k.epoch = k'.epoch ∧ k.quorum = k'.quorum ∧ P = P')) ∧
    (∀ (k : BlobKey) (c : Bytes) (P : G1), Commitment.decode c = .ok P →
      k.preimage P = .ok (k.root.toList ++
        (List.replicate 24 0 ++ Radix.bigEndian 8 k.epoch.toNat) ++
        (List.replicate 24 0 ++ Radix.bigEndian 8 k.quorum.toNat) ++
        (c.take 32).reverse ++ (c.drop 32).reverse)) ∧
    ∀ (limit limit' : UInt64) (r r' : Request) (d d' : Decoded),
      r.decode limit = .ok d → r'.decode limit' = .ok d' →
      (d.key.preimage d.commitment = d'.key.preimage d'.commitment ↔
        r.root = r'.root ∧ r.epoch = r'.epoch ∧ r.quorum = r'.quorum ∧
          r.commitment = r'.commitment) := by
  refine ⟨exists_preimage, fun k k' P P' => preimage_eq_iff, fun k c P h => preimage_of_decode h k, ?_⟩
  intro limit limit' r r' d d' h h'
  exact Request.preimage_eq_iff (Request.decodes_of_decode h) (Request.decodes_of_decode h')

/-- Requests for two quorums, and a blob with infinity for its commitment. -/
theorem preimage_separates_quorums :
    let c : Bytes := 1 :: List.replicate 31 0 ++ 2 :: List.replicate 31 0
    let r : Request := ⟨5, 2, Bytes32.zero.toList, c, []⟩
    let r' : Request := ⟨5, 3, Bytes32.zero.toList, c, []⟩
    let k : BlobKey := ⟨5, 2, .zero⟩
    let k' : BlobKey := ⟨5, 3, .zero⟩
    r.decode 64 = .ok ⟨k, G1.generator, []⟩ ∧ r'.decode 64 = .ok ⟨k', G1.generator, []⟩ ∧
      Commitment.decode c = .ok G1.generator ∧ G1.infinity.OnCurve ∧ G1.generator.OnCurve ∧
      k.preimage G1.generator ≠ k'.preimage G1.generator ∧
      k.preimage G1.infinity ≠ k.preimage G1.generator := by
  intro c r r' k k'
  obtain ⟨-, hpoints, -, hrequests⟩ := preimage_separates
  have hr : r.decode 64 = .ok ⟨k, G1.generator, []⟩ :=
    Request.decode_of_decodes ⟨rfl, rfl, rfl, Commitment.decode_generator, .nil⟩
  have hr' : r'.decode 64 = .ok ⟨k', G1.generator, []⟩ :=
    Request.decode_of_decodes ⟨rfl, rfl, rfl, Commitment.decode_generator, .nil⟩
  have hinfinity : G1.infinity.OnCurve := trivial
  have hgenerator : G1.generator.OnCurve := by decide
  refine ⟨hr, hr', Commitment.decode_generator, hinfinity, hgenerator, fun h => ?_, fun h => ?_⟩
  · obtain ⟨-, -, hquorum, -⟩ := (hrequests 64 64 r r' _ _ hr hr').1 h
    exact absurd hquorum (by decide)
  · obtain ⟨-, -, -, hsame⟩ := (hpoints k k _ _ hinfinity hgenerator).1 h
    cases hsame

end BlobKey

end BlobSigner
