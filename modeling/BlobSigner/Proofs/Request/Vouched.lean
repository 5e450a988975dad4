import BlobSigner.Proofs.Batch.Nesting
import BlobSigner.Proofs.Batch.Persistence
import BlobSigner.Proofs.Bn254.Encoding
import BlobSigner.Proofs.Slice
/-!
# What a signed request has shown

A request gets its signature only if it passes every check, also when its look-up has further batches
signed in the meantime (`passes_of_process`). Then it vouches for its slices under its key
(`vouches_of_process`).
-/
namespace BlobSigner

variable {k : BlobKey} {slices : List Slice}

/-! ## Single checks -/

/-- Payloads that are read keep to the limit. -/
theorem Slice.length_of_forall₂ {limit : UInt64} {bs : List Bytes} {slices : List Slice}
    (h : List.Forall₂ (fun b s => decode limit b = .ok s) bs slices) :
    ∀ s ∈ slices, s.payload.length ≤ limit.toNat := by
  induction h with
  | nil => exact nofun
  | cons hb _ ih => exact List.forall_mem_cons.2 ⟨(decode_eq_ok_iff.1 hb).2, ih⟩

namespace Store

theorem get?_of_readStatus {st : Store} {k : BlobKey} {status : Option BlobStatus}
    (h : st.readStatus k = .ok status) : st.statuses.get? k = status := by
  unfold readStatus at h
  split at h
  · cases h
  · exact Except.ok.inj h

theorem get?_of_readAssignment {st : Store} {k : QuorumKey} {assigned : Option (List UInt64)}
    (h : st.readAssignment k = .ok assigned) : st.assignments.get? k = assigned := by
  unfold readAssignment at h
  split at h
  · cases h
  · exact Except.ok.inj h

end Store

theorem SliceCheck.verify_eq_ok_iff {pool : Pool} {check : SliceCheck} {schedule : Pool.Schedule}
    {root : StorageRoot} {C : G1} {assigned : List UInt64} {slices : List Slice} :
    (verify pool check schedule root C assigned slices).1 = .ok () ↔
      slices.map Slice.index = assigned ∧ ∀ s ∈ slices, check s C root = .accepted := by
  by_cases hlen : assigned.length = slices.length
  · rw [verify_fst pool schedule hlen, ← Request.forall_zip_good_iff hlen,
      ← firstFault?_eq_none_iff (i := 0)]
    cases firstFault? check root C 0 (slices.zip assigned) <;> simp
  · rw [verify, if_pos hlen]
    constructor
    · intro h
      cases h
    · rintro ⟨hindices, -⟩
      exact absurd (by rw [← hindices, List.length_map]) hlen

section

variable {svc : Service} {env : Surroundings} {nested : Batch → Node → Traced Reply} {n : Node}

theorem Node.judgeStatus_eq_ok_iff {read : Except String (Option BlobStatus)} :
    judgeStatus read = .ok () ↔ read = .ok (some .uploaded) := by
  constructor
  · intro h
    unfold judgeStatus at h
    split at h
    · cases h
    · cases h
    · split at h
      · rename_i hs
        rw [hs]
      · split at h <;> cases h
  · rintro rfl
    rfl

theorem Node.judgeAssignment_eq_ok_iff {read : Except String (Option (List UInt64))}
    {assigned : List UInt64} : judgeAssignment read = .ok assigned ↔ read = .ok (some assigned) := by
  constructor
  · intro h
    unfold judgeAssignment at h
    split at h <;> cases h
    rfl
  · rintro rfl
    rfl

/-! ## All checks -/

/-- What has been verified, as the node stands once the count is there. -/
theorem Node.checks_of_verify {pool : Pool} {d : Decoded}
    (h : (n.verify env nested pool d).value = .ok ()) :
    (∃ count, (n.fetchCount env nested d.key.epoch).value = .ok count ∧ d.key.quorum < count) ∧
      (n.fetchCount env nested d.key.epoch).node.store.readAssignment d.key.quorumKey =
        .ok (some (d.slices.map Slice.index)) ∧
      ∀ s ∈ d.slices, env.check s d.commitment d.key.root = .accepted := by
  obtain ⟨count, hcount, h⟩ := Traced.exists_of_andThen_ok h
  obtain ⟨_, hbound, h⟩ := Traced.exists_of_andThen_ok h
  obtain ⟨assigned, hread, hcheck⟩ := Traced.exists_of_andThen_ok h
  have hlt : d.key.quorum < count := by
    by_contra hge
    rw [checkQuorum_of_not_lt (k := d.key.quorumKey) hge] at hbound
    cases hbound
  obtain ⟨hindices, hproofs⟩ := SliceCheck.verify_eq_ok_iff.1 hcheck
  refine ⟨⟨count, Traced.mapError_eq_ok_iff.1 hcount, hlt⟩, ?_, hproofs⟩
  rw [hindices]
  exact judgeAssignment_eq_ok_iff.1 hread

theorem Service.awaited_of_gate {r : Request} {d : Decoded} (hd : r.decode svc.payloadLimit = .ok d)
    (hgate : (n.gate d.key).value = .ok ()) : r.Awaited svc.payloadLimit n.store d :=
  ⟨Request.decodes_of_decode hd, Node.judgeStatus_eq_ok_iff.1 hgate⟩

/-- A request that has been signed passes every check, whatever its look-up has had signed. -/
theorem Service.passes_of_process {r : Request} {s : Signed}
    (hnested : ∀ b n, Examines n (nested b n).events (nested b n).node)
    (h : (svc.process env nested r n).value = .ok s) :
    ∃ d, r.Passes svc.payloadLimit env.check n.store
      (fun epoch => (n.fetchCount env nested epoch).value) d ∧ s.entry = (d.key, d.slices) := by
  obtain ⟨d, hd, h⟩ := Traced.exists_of_andThen_ok h
  obtain ⟨_, hgate, h⟩ := Traced.exists_of_andThen_ok h
  obtain ⟨_, hverify, hsign⟩ := Traced.exists_of_andThen_ok h
  obtain ⟨hcount, hassigned, hproofs⟩ := Node.checks_of_verify hverify
  -- the look-up may have written slices, but no assignment
  have hreads := (Store.reads_of_putAll
    ((Node.examines_fetchCount hnested env d.key.epoch n).ledger.kept 0)).2
  refine ⟨d, ⟨⟨awaited_of_gate hd hgate, hcount⟩, ?_, hproofs⟩, ?_⟩
  · rw [← hreads]
    exact hassigned
  · obtain ⟨signature, hsigned⟩ := d.key.exists_sign d.commitment svc.key
    simp only [Traced.of, signDecoded, hsigned, Except.ok.injEq] at hsign
    rw [← hsign]
    rfl

end

/-- The request, on the node that it finds, vouches for these slices under this key. -/
structure Service.Vouches (svc : Service) (env : Surroundings) (n : Node) (r : Request)
    (k : BlobKey) (slices : List Slice) : Prop where
  epoch : r.epoch = k.epoch
  quorum : r.quorum = k.quorum
  root : r.root = k.root.toList
  decoded : List.Forall₂ (fun b s => Slice.decode svc.payloadLimit b = .ok s) r.slices slices
  payloads : ∀ s ∈ slices, s.payload.length ≤ svc.payloadLimit.toNat
  uploaded : n.store.statuses.get? k = some .uploaded
  /-- The count is the one in the cache, or else what the look-up of this request says. -/
  seated : ∃ count, (n.fetchCount env (svc.batchSign env) k.epoch).value = .ok count ∧
    k.quorum < count
  assigned : n.store.assignments.get? k.quorumKey = some (slices.map Slice.index)
  proofs : ∃ C, Commitment.decode r.commitment = .ok C ∧ C.OnCurve ∧
    ∀ s ∈ slices, env.check s C k.root = .accepted

/-- **A request that has been signed vouches for its slices.** -/
theorem Service.vouches_of_process {svc : Service} {env : Surroundings} {n : Node} {r : Request}
    {s : Signed} (h : (svc.process env (svc.batchSign env) r n).value = .ok s)
    (hs : s.entry = (k, slices)) : svc.Vouches env n r k slices := by
  obtain ⟨d, hd, hentry⟩ := passes_of_process (examines_batchSign svc env) h
  obtain ⟨rfl, rfl⟩ := Prod.mk.inj (hentry.symm.trans hs)
  exact
    { epoch := hd.epoch.symm
      quorum := hd.quorum.symm
      root := hd.root.symm
      decoded := hd.slices
      payloads := Slice.length_of_forall₂ hd.slices
      uploaded := Store.get?_of_readStatus hd.uploaded
      seated := hd.seated
      assigned := Store.get?_of_readAssignment hd.assigned
      proofs := ⟨d.commitment, hd.commitment, (Commitment.affine_of_decode hd.commitment).1,
        hd.proofs⟩ }

end BlobSigner
