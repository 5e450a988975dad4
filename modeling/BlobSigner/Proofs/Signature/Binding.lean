import BlobSigner.Proofs.Batch.Persistence
import BlobSigner.Proofs.Batch.Verdict
import BlobSigner.Proofs.Bn254.Lift
import BlobSigner.Proofs.Bn254.Uncompressed
/-!
# What a signature tells of the key

A hash point is on the curve and not infinity, so its multiples by different keys are different
points, and none of them is infinity (`decode_of_sign`). On the curve points and their bytes determine
each other, so the bytes of a signature tell the key (`sign_inj`). This carries over to all that a
service answers, as every good answer is made of such signatures: `signature_binding`.
-/
namespace BlobSigner

/-! ## One signature -/

namespace BlobKey

variable {k : BlobKey} {C H : G1} {key key' : Fr} {signature : Bytes}

/-- What is signed is a point that has multiples other than infinity. -/
theorem onCurve_of_hashPoint (h : k.hashPoint C = .ok H) : H.OnCurve ∧ H ≠ .infinity := by
  cases hb : k.preimage C with
  | error e =>
    rw [hashPoint, hb] at h
    cases h
  | ok b =>
    rw [hashPoint, hb] at h
    cases h
    exact G1.onCurve_ofDigest _

/-- A signature is read as the hash point times the key. -/
theorem decode_of_sign (hkey : key ≠ 0) (h : k.sign C key = .ok signature) :
    ∃ H S, k.hashPoint C = .ok H ∧ H.tryMul key = .ok S ∧ signature.length = 64 ∧
      G1.lastBit 6 signature = false ∧ G1.decode signature = .ok S ∧ S.OnCurve ∧
      S ≠ .infinity := by
  obtain ⟨H, S, hH, hS, hencode⟩ := sign_eq_ok_iff.1 h
  obtain ⟨hcurve, hne⟩ := onCurve_of_hashPoint hH
  have hSne := G1.ne_infinity_of_tryMul hcurve hne hkey hS
  have hScurve := G1.onCurve_of_tryMul hcurve hS
  refine ⟨H, S, hH, hS, G1.length_of_encode hencode, ?_, G1.decode_of_encode hScurve hencode, hScurve,
    hSne⟩
  rw [← Bool.not_eq_true, G1.lastBit_six_of_encode hencode]
  exact hSne

/-- Different keys sign one blob with different bytes. -/
theorem sign_inj : k.sign C key = k.sign C key' ↔ key = key' := by
  constructor
  · intro h
    obtain ⟨signature, hsign⟩ := k.exists_sign C key
    obtain ⟨H, S, hH, hS, hencode⟩ := sign_eq_ok_iff.1 hsign
    obtain ⟨H', S', hH', hS', hencode'⟩ := sign_eq_ok_iff.1 (h.symm.trans hsign)
    cases hH.symm.trans hH'
    obtain ⟨hcurve, hne⟩ := onCurve_of_hashPoint hH
    have hsame : S = S' :=
      (G1.encode_inj (G1.onCurve_of_tryMul hcurve hS) (G1.onCurve_of_tryMul hcurve hS')).1
        (hencode.trans hencode'.symm)
    rw [← G1.tryMul_inj hcurve hne, hS, hS', hsame]
  · rintro rfl
    rfl

end BlobKey

/-- What is signed for a request does not depend on the limit that it is read with. -/
theorem Request.Decodes.same {limit limit' : UInt64} {r : Request} {d d' : Decoded}
    (h : r.Decodes limit d) (h' : r.Decodes limit' d') :
    d.key = d'.key ∧ d.commitment = d'.commitment := by
  have hroot : d.key.root = d'.key.root := Bytes32.ext (h.root.trans h'.root.symm)
  have hparts : ∀ k : BlobKey, k = ⟨k.epoch, k.quorum, k.root⟩ := fun _ => rfl
  refine ⟨?_, Except.ok.inj (h.commitment.symm.trans h'.commitment)⟩
  rw [hparts d.key, hparts d'.key, hroot, h.epoch, h.quorum, h'.epoch, h'.quorum]

namespace Service

/-! ## The signatures of a batch -/

variable {svc svc' : Service} {env : Surroundings} {b : Batch} {n : Node} {r : Request}
  {signature signature' : Bytes}

/-- A good answer has the signatures of the requests, whatever look-ups have had signed. -/
theorem signs_of_isOk (h : (svc.batchSign env b n).value.status.isOk) :
    List.Forall₂ (fun r signature => ∃ d, r.Decodes svc.payloadLimit d ∧
        d.key.sign d.commitment svc.key = .ok signature)
      b.requests (svc.batchSign env b n).value.signatures := by
  by_cases hroom : n.admission.ongoing < n.admission.max
  · cases hv : (svc.examine env b n).value with
    | error f =>
      rw [batchSign_of_rejected hroom hv, Reply.isOk_of_error] at h
      cases h
    | ok signed =>
      obtain ⟨hbad, hgood⟩ := batchSign_of_signed hroom hv
      cases hw : (commit 0 signed.length signed (svc.examine env b n).node).value with
      | error f =>
        rw [hbad f hw, Reply.isOk_of_error] at h
        cases h
      | ok _ =>
        rw [hgood hw]
        refine List.forall₂_map_right_iff.2 ((signs_of_processAll hv).imp fun r s hs => ?_)
        obtain ⟨d, hd, -, -, hsign⟩ := hs.signed
        exact ⟨d, hd, hsign⟩
  · rw [batchSign_of_full hroom, shed, Reply.isOk_of_error] at h
    cases h

/-- Some batch that the service has answered well has the request with this signature. -/
def Issues (svc : Service) (r : Request) (signature : Bytes) : Prop :=
  ∃ env b n, (svc.batchSign env b n).value.status.isOk ∧
    (r, signature) ∈ b.requests.zip (svc.batchSign env b n).value.signatures

theorem sign_of_issues (h : svc.Issues r signature) :
    ∃ d, r.Decodes svc.payloadLimit d ∧ d.key.sign d.commitment svc.key = .ok signature := by
  obtain ⟨env, b, n, hok, hmem⟩ := h
  exact List.forall₂_zip (signs_of_isOk hok) hmem

theorem issues_eq_iff (h : svc.Issues r signature) (h' : svc'.Issues r signature') :
    signature = signature' ↔ svc.key = svc'.key := by
  obtain ⟨d, hd, hsign⟩ := sign_of_issues h
  obtain ⟨d', hd', hsign'⟩ := sign_of_issues h'
  obtain ⟨hkey, hcommitment⟩ := hd.same hd'
  rw [← hkey, ← hcommitment] at hsign'
  rw [← BlobKey.sign_inj (k := d.key) (C := d.commitment), hsign, hsign', Except.ok.injEq]

/-- **Signatures are usable, and bind the key.** In every answer that is good each request has a
signature of 64 bytes without the mark of infinity, which is read as a point on the curve, not
infinity: the request's own hash point times the service's key. Under each other key the request has
other bytes. So services, in whatever state and surroundings, that issue signatures for one request
issue the same one exactly if they have the same key. -/
theorem signature_binding (svc : Service) :
    (∀ env b n, (svc.batchSign env b n).value.status.isOk →
      List.Forall₂ (fun r signature => ∃ d H S, r.Decodes svc.payloadLimit d ∧
          d.key.hashPoint d.commitment = .ok H ∧ H.tryMul svc.key = .ok S ∧
          signature.length = 64 ∧ G1.lastBit 6 signature = false ∧
          G1.decode signature = .ok S ∧ S.OnCurve ∧ S ≠ .infinity ∧
          ∀ key, key ≠ svc.key →
            ∃ other, d.key.sign d.commitment key = .ok other ∧ other ≠ signature)
        b.requests (svc.batchSign env b n).value.signatures) ∧
    ∀ (svc' : Service) r signature signature', svc.Issues r signature → svc'.Issues r signature' →
      (signature = signature' ↔ svc.key = svc'.key) := by
  refine ⟨fun env b n hok => ?_, fun svc' r signature signature' => issues_eq_iff⟩
  refine (signs_of_isOk hok).imp fun r signature hsigned => ?_
  obtain ⟨d, hd, hsign⟩ := hsigned
  obtain ⟨H, S, hH, hS, hlength, hmark, hread, hcurve, hne⟩ :=
    BlobKey.decode_of_sign svc.key_ne_zero hsign
  refine ⟨d, H, S, hd, hH, hS, hlength, hmark, hread, hcurve, hne, fun key hkey => ?_⟩
  obtain ⟨other, hother⟩ := d.key.exists_sign d.commitment key
  refine ⟨other, hother, ?_⟩
  rintro rfl
  exact hkey (BlobKey.sign_inj.1 (hother.trans hsign.symm))

/-- One request, signed under two keys. -/
theorem signature_binding_two_keys :
    let one : Service := ⟨1, 64, ⟨2, by decide⟩, by decide⟩
    let two : Service := ⟨2, 64, ⟨2, by decide⟩, by decide⟩
    let env : Surroundings := ⟨fun _ _ => .answer (.ok 3), fun _ _ _ => .accepted, fun _ => []⟩
    let k : BlobKey := ⟨5, 2, .zero⟩
    let store := (Store.empty.setStatus k .uploaded).setAssignment k.quorumKey [7]
    let n : Node := { Node.init .idle with store := store }
    let r : Request := ⟨5, 2, Bytes32.zero.toList,
      1 :: List.replicate 31 0 ++ 2 :: List.replicate 31 0, [[0, 0, 0, 0, 0, 0, 0, 7, 0, 0, 0, 0]]⟩
    (one.batchSign env ⟨[r], ""⟩ n).value.status.isOk ∧
      (two.batchSign env ⟨[r], ""⟩ n).value.status.isOk ∧
      ∃ signature signature', one.Issues r signature ∧ two.Issues r signature' ∧
        signature ≠ signature' ∧ signature.length = 64 ∧ G1.lastBit 6 signature = false := by
  intro one two env k store n r
  have hpass : r.Passes 64 env.check n.store (n.countOf fun _ _ => .ok 3)
      ⟨k, G1.generator, [⟨7, []⟩]⟩ :=
    { epoch := rfl
      quorum := rfl
      root := rfl
      commitment := Commitment.decode_generator
      slices := .cons rfl .nil
      uploaded := rfl
      seated := ⟨3, rfl, by decide⟩
      assigned := rfl
      proofs := fun _ _ => rfl }
  have hone : (one.batchSign env ⟨[r], ""⟩ n).value.status.isOk :=
    isOk_of_passes (fun _ _ => rfl) (by decide) hpass (by decide) ""
  have htwo : (two.batchSign env ⟨[r], ""⟩ n).value.status.isOk :=
    isOk_of_passes (fun _ _ => rfl) (by decide) hpass (by decide) ""
  obtain ⟨husable, hbinding⟩ := signature_binding one
  obtain ⟨signature, _, ⟨_, _, _, -, -, -, hlength, hmark, -⟩, -, heq⟩ :=
    List.forall₂_cons_left_iff.1 (husable env _ n hone)
  obtain ⟨signature', _, -, -, heq'⟩ :=
    List.forall₂_cons_left_iff.1 ((signature_binding two).1 env _ n htwo)
  have hissued : one.Issues r signature := ⟨env, _, n, hone, by rw [heq]; exact .head _⟩
  have hissued' : two.Issues r signature' := ⟨env, _, n, htwo, by rw [heq']; exact .head _⟩
  refine ⟨hone, htwo, signature, signature', hissued, hissued', fun hsame => ?_, hlength, hmark⟩
  exact absurd ((hbinding two r signature signature' hissued hissued').1 hsame) (by decide)

end Service

end BlobSigner
