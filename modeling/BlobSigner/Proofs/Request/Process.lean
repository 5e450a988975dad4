import BlobSigner.Proofs.Bn254.Total
import BlobSigner.Proofs.Request.Checks
import BlobSigner.Proofs.Traced
import BlobSigner.Service
/-!
# The work on a request makes its checks

When look-ups have no batch signed, the work on one request finds what the checks say: a request that
passes is signed, and one that fails is refused with the cause of its first failing check.
-/
namespace BlobSigner

variable {limit : UInt64} {check : SliceCheck} {reply : Nat → UInt64 → Except LookupError UInt64}
variable {n : Node} {r : Request} {d : Decoded}

/-! ## Reading a request -/

namespace Request

theorem decodeSlices_of_forall₂ {i : Nat} {bs : List Bytes} {slices : List Slice}
    (h : List.Forall₂ (fun b s => Slice.decode limit b = .ok s) bs slices) :
    decodeSlices limit i bs = .ok slices := by
  induction h generalizing i with
  | nil => rfl
  | cons hb _ ih =>
    rw [decodeSlices, hb]
    simp only [ih]
    rfl

theorem decodeSlices_of_bad {i : Nat} {before after : List Bytes} {b : Bytes} {e : Slice.FormError}
    (hgood : ∀ x ∈ before, ∃ s, Slice.decode limit x = .ok s) (hb : Slice.decode limit b = .error e) :
    decodeSlices limit i (before ++ b :: after) = .error (.slice (i + before.length) e) := by
  induction before generalizing i with
  | nil =>
    rw [List.nil_append, decodeSlices, hb]
    rfl
  | cons x before ih =>
    obtain ⟨⟨s, hs⟩, hgood⟩ := List.forall_mem_cons.1 hgood
    rw [List.cons_append, decodeSlices, hs]
    simp only [ih hgood, List.length_cons]
    rw [show i + 1 + before.length = i + (before.length + 1) by omega]
    rfl

theorem ofBytes_of_length {b : Bytes} (h : b.length = 32) : StorageRoot.ofBytes b = .ok ⟨b, h⟩ := by
  rw [StorageRoot.ofBytes, Bytes32.ofList?, dif_pos h]

theorem ofBytes_of_length_ne {b : Bytes} (h : b.length ≠ 32) :
    StorageRoot.ofBytes b = .error ⟨b.length⟩ := by
  rw [StorageRoot.ofBytes, Bytes32.ofList?, dif_neg h]

theorem decodeCommitment_of_ok {b : Bytes} {C : G1} (h : Commitment.decode b = .ok C) :
    decodeCommitment b = .ok C := by
  rw [decodeCommitment, h]

/-- The arithmetic of a commitment never fails, so its error is one of its checks. -/
theorem decodeCommitment_of_error {b : Bytes} {e : Commitment.Error}
    (h : Commitment.decode b = .error e) : decodeCommitment b = .error (.commitment e) := by
  rw [decodeCommitment, h]
  cases e with
  | arithmetic e => exact absurd h (Commitment.decode_ne_arithmetic b e)
  | length _ => rfl
  | coordinate _ => rfl
  | notOnCurve => rfl
  | notInSubgroup => rfl

theorem decode_of_decodes (h : r.Decodes limit d) : r.decode limit = .ok d := by
  have hlen : r.root.length = 32 := h.root ▸ d.key.root.length_toList
  have hroot : (⟨r.root, hlen⟩ : StorageRoot) = d.key.root := Bytes32.ext h.root.symm
  rw [decode, ofBytes_of_length hlen, decodeCommitment_of_ok h.commitment,
    decodeSlices_of_forall₂ h.slices, hroot, ← h.epoch, ← h.quorum]
  rfl

theorem forall₂_of_decodeSlices {i : Nat} {bs : List Bytes} {slices : List Slice}
    (h : decodeSlices limit i bs = .ok slices) :
    List.Forall₂ (fun b s => Slice.decode limit b = .ok s) bs slices := by
  induction bs generalizing i slices with
  | nil =>
    cases h
    exact .nil
  | cons b bs ih =>
    rw [decodeSlices] at h
    cases hb : Slice.decode limit b with
    | error e =>
      rw [hb] at h
      cases h
    | ok s =>
      cases hbs : decodeSlices limit (i + 1) bs with
      | error e => simp only [hb, hbs, Except.map, reduceCtorEq] at h
      | ok rest =>
        simp only [hb, hbs, Except.map, Except.ok.injEq] at h
        exact h ▸ .cons hb (ih hbs)

/-- What has been read is what the request says. -/
theorem decodes_of_decode (h : r.decode limit = .ok d) : r.Decodes limit d := by
  by_cases hroot : r.root.length = 32
  · cases hC : Commitment.decode r.commitment with
    | error e =>
      rw [decode, ofBytes_of_length hroot, decodeCommitment_of_error hC] at h
      cases h
    | ok C =>
      rw [decode, ofBytes_of_length hroot, decodeCommitment_of_ok hC] at h
      cases hs : decodeSlices limit 0 r.slices with
      | error e => simp only [hs, Except.map, reduceCtorEq] at h
      | ok slices =>
        simp only [hs, Except.map, Except.ok.injEq] at h
        exact h ▸ ⟨rfl, rfl, rfl, hC, forall₂_of_decodeSlices hs⟩
  · rw [decode, ofBytes_of_length_ne hroot] at h
    cases h

end Request

/-! ## Asking for the quorum count -/

namespace Node

@[simp] theorem store_asked (n : Node) (epoch : UInt64) : (n.asked reply epoch).store = n.store := by
  unfold asked
  split
  · rfl
  · split <;> rfl

@[simp] theorem rounds_asked (n : Node) (epoch : UInt64) : (n.asked reply epoch).rounds = n.rounds := by
  unfold asked
  split
  · rfl
  · split <;> rfl

variable {env : Surroundings} (nested : Batch → Node → Traced Reply)

theorem fetchCount_of_answers (hp : env.Answers reply) (n : Node) (epoch : UInt64) :
    (n.fetchCount env nested epoch).value = n.countOf reply epoch ∧
      (n.fetchCount env nested epoch).node = n.asked reply epoch := by
  unfold fetchCount fetchBy countOf asked
  cases n.counts.get? epoch with
  | some count => exact ⟨rfl, rfl⟩
  | none =>
    rw [hp n.lookups epoch]
    cases reply n.lookups epoch <;> exact ⟨rfl, rfl⟩

/-! ## Checking a request against the node -/

theorem verify_of_count_error (hp : env.Answers reply) (pool : Pool) {e : LookupError}
    (hc : n.countOf reply d.key.epoch = .error e) :
    (n.verify env nested pool d).value = .error (.countUnavailable d.key.epoch e.message) := by
  have hf := (fetchCount_of_answers nested hp n d.key.epoch).1
  rw [verify, Traced.andThen_of_error (e := .countUnavailable d.key.epoch e.message)]
  simp only [Traced.map, hf, hc, Except.mapError]

/-- Once the count is there, the quorum's bound and its slices are left to check. -/
theorem verify_of_count (hp : env.Answers reply) (pool : Pool) {count : UInt64}
    (hc : n.countOf reply d.key.epoch = .ok count) :
    ∃ events, n.verify env nested pool d = Traced.after events
      (((n.asked reply d.key.epoch).checkQuorum d.key.quorumKey count).andThen fun _ n =>
        (n.readAssignment d.key.quorumKey).andThen fun assigned n =>
          n.checkSlices env pool d.key.root d.commitment assigned d.slices) := by
  obtain ⟨hvalue, hnode⟩ := fetchCount_of_answers nested hp n d.key.epoch
  refine ⟨(n.fetchCount env nested d.key.epoch).events, ?_⟩
  rw [verify, Traced.andThen_of_ok (a := count)]
  · rw [← hnode]
    rfl
  · simp only [Traced.map, hvalue, hc, Except.mapError]

theorem checkQuorum_of_lt {k : QuorumKey} {count : UInt64} (h : k.quorum < count) :
    n.checkQuorum k count = .of (.ok ()) n := by
  rw [checkQuorum, if_pos h]

theorem checkQuorum_of_not_lt {k : QuorumKey} {count : UInt64} (h : ¬ k.quorum < count) :
    n.checkQuorum k count = .of (.error (.quorumOutOfBound k.quorum k.epoch count)) n := by
  rw [checkQuorum, if_neg h]

theorem verify_of_bound (hp : env.Answers reply) (pool : Pool) {count : UInt64}
    (hc : n.countOf reply d.key.epoch = .ok count) (hlt : ¬ d.key.quorum < count) :
    (n.verify env nested pool d).value =
      .error (.quorumOutOfBound d.key.quorum d.key.epoch count) := by
  obtain ⟨events, h⟩ := verify_of_count nested hp pool hc
  rw [h, Traced.value_after, checkQuorum_of_not_lt (k := d.key.quorumKey) hlt]
  rfl

/-- Once the quorum has its seat, the assignment is read and the slices are checked against it. -/
theorem verify_of_seated (hp : env.Answers reply) (pool : Pool)
    (h : r.Seated limit n.store (n.countOf reply) d) :
    ∃ events, n.verify env nested pool d = Traced.after events
      (((n.asked reply d.key.epoch).readAssignment d.key.quorumKey).andThen fun assigned n =>
        n.checkSlices env pool d.key.root d.commitment assigned d.slices) := by
  obtain ⟨count, hc, hlt⟩ := h.seated
  obtain ⟨events, he⟩ := verify_of_count nested hp pool hc
  rw [checkQuorum_of_lt (k := d.key.quorumKey) hlt, Traced.andThen_of] at he
  exact ⟨events, he⟩

theorem verify_of_assignment_error (hp : env.Answers reply) (pool : Pool)
    (h : r.Seated limit n.store (n.countOf reply) d) {cause : Rejection}
    (ha : judgeAssignment (n.store.readAssignment d.key.quorumKey) = .error cause) :
    (n.verify env nested pool d).value = .error cause := by
  obtain ⟨events, he⟩ := verify_of_seated nested hp pool h
  rw [he, Traced.value_after, Traced.andThen_of_error (e := cause)]
  simp only [readAssignment, store_asked, ha]

/-- With an assignment the verdict is the pool's. -/
theorem verify_of_assignment (hp : env.Answers reply) (pool : Pool)
    (h : r.Seated limit n.store (n.countOf reply) d)
    {assigned : List UInt64} (ha : n.store.readAssignment d.key.quorumKey = .ok (some assigned)) :
    (n.verify env nested pool d).value =
        (SliceCheck.verify pool env.check (env.schedule n.rounds) d.key.root d.commitment assigned
          d.slices).1 ∧
      (n.verify env nested pool d).node =
        { n.asked reply d.key.epoch with rounds := n.rounds + 1 } := by
  obtain ⟨events, he⟩ := verify_of_seated nested hp pool h
  rw [he, Traced.value_after, Traced.node_after, Traced.andThen_of_ok (a := assigned)]
  · simp only [Traced.value_after, Traced.node_after, checkSlices, readAssignment, rounds_asked,
      and_self]
  · simp only [readAssignment, store_asked, ha]
    rfl

end Node

/-! ## The whole work -/

namespace Service

variable {svc : Service} {env : Surroundings} {nested : Batch → Node → Traced Reply}

/-- What is kept of a request that has been signed: its own key and slices, and the signature of its
own key and commitment. -/
structure Signs (svc : Service) (r : Request) (s : Signed) : Prop where
  signed : ∃ d, r.Decodes svc.payloadLimit d ∧ s.key = d.key ∧ s.slices = d.slices ∧
    d.key.sign d.commitment svc.key = .ok s.signature

theorem process_of_decode_error {cause : Rejection} (h : r.decode svc.payloadLimit = .error cause) :
    (svc.process env nested r n).value = .error cause := by
  rw [process, Traced.andThen_of_error (e := cause)]
  exact h

theorem process_of_decodes (h : r.Decodes svc.payloadLimit d) :
    svc.process env nested r n = (n.gate d.key).andThen fun _ n =>
      (n.verify env nested svc.pool d).andThen fun _ n => .of (svc.signDecoded d) n := by
  rw [process, Request.decode_of_decodes h, Traced.andThen_of]

theorem process_of_status_error (h : r.Decodes svc.payloadLimit d) {cause : Rejection}
    (hs : Node.judgeStatus (n.store.readStatus d.key) = .error cause) :
    (svc.process env nested r n).value = .error cause := by
  rw [process_of_decodes h, Traced.andThen_of_error (e := cause)]
  exact hs

theorem process_of_awaited (env : Surroundings) (nested : Batch → Node → Traced Reply)
    (h : r.Awaited svc.payloadLimit n.store d) :
    svc.process env nested r n = Traced.after [.readStatus d.key (n.store.readStatus d.key)]
      ((n.verify env nested svc.pool d).andThen fun _ n => .of (svc.signDecoded d) n) := by
  rw [process_of_decodes h.toDecodes, Traced.andThen_of_ok (a := ())]
  · rfl
  · simp only [Node.gate, h.uploaded]
    rfl

theorem process_of_verify_error (h : r.Awaited svc.payloadLimit n.store d) {cause : Rejection}
    (hv : (n.verify env nested svc.pool d).value = .error cause) :
    (svc.process env nested r n).value = .error cause := by
  rw [process_of_awaited env nested h, Traced.value_after, Traced.andThen_of_error hv]

/-- Whatever the surroundings, what is kept of a request is its own. -/
theorem signs_of_process {s : Signed} (h : (svc.process env nested r n).value = .ok s) :
    svc.Signs r s := by
  cases hd : r.decode svc.payloadLimit with
  | error cause =>
    rw [process_of_decode_error hd] at h
    cases h
  | ok d =>
    have hdecodes := Request.decodes_of_decode hd
    rw [process_of_decodes hdecodes] at h
    obtain ⟨_, -, hverify⟩ := Traced.exists_of_andThen_ok h
    obtain ⟨_, -, hsigned⟩ := Traced.exists_of_andThen_ok hverify
    obtain ⟨signature, hsign⟩ := d.key.exists_sign d.commitment svc.key
    simp only [Traced.of, signDecoded, hsign, Except.ok.injEq] at hsigned
    exact hsigned ▸ ⟨d, hdecodes, rfl, rfl, hsign⟩

/-- **A request that passes is signed**, and nothing of the node changes but what it learns of the
chain. -/
theorem process_of_passes (hp : env.Answers reply)
    (h : r.Passes svc.payloadLimit env.check n.store (n.countOf reply) d) :
    ∃ s, svc.Signs r s ∧ (svc.process env nested r n).value = .ok s ∧
      (svc.process env nested r n).node = n.served reply r := by
  obtain ⟨signature, hsign⟩ := d.key.exists_sign d.commitment svc.key
  have hlen : (d.slices.map Slice.index).length = d.slices.length := by simp
  have hgood := (Request.forall_zip_good_iff hlen).2 ⟨rfl, h.proofs⟩
  obtain ⟨hvalue, hnode⟩ :=
    Node.verify_of_assignment nested hp svc.pool h.toSeated h.assigned
  rw [SliceCheck.verify_fst svc.pool _ hlen, SliceCheck.firstFault?_eq_none_iff.2 hgood] at hvalue
  refine ⟨⟨signature, d.key, d.slices⟩, ⟨d, h.toDecodes, rfl, rfl, hsign⟩, ?_⟩
  rw [process_of_awaited env nested h.toAwaited, Traced.andThen_of_ok hvalue, hnode]
  constructor
  · simp only [Traced.value_after, Traced.of, signDecoded, hsign]
  · simp only [Traced.node_after, Traced.of, Node.served, h.epoch]

/-- **A request that fails is refused** with the cause of its first failing check. -/
theorem process_of_fails (hp : env.Answers reply) {cause : Rejection}
    (h : r.Fails svc.payloadLimit env.check n.store (n.countOf reply) cause) :
    (svc.process env nested r n).value = .error cause := by
  cases h with
  | root hroot =>
    apply process_of_decode_error
    rw [Request.decode, Request.ofBytes_of_length_ne hroot]
  | commitment hroot hC =>
    apply process_of_decode_error
    rw [Request.decode, Request.ofBytes_of_length hroot, Request.decodeCommitment_of_error hC]
  | slice hroot hC heq hgood hb =>
    apply process_of_decode_error
    rw [Request.decode, Request.ofBytes_of_length hroot, Request.decodeCommitment_of_ok hC, heq,
      Request.decodeSlices_of_bad hgood hb, Nat.zero_add]
    rfl
  | statusUnreadable hd hs => exact process_of_status_error hd (by rw [hs]; rfl)
  | blobUnknown hd hs => exact process_of_status_error hd (by rw [hs]; rfl)
  | blobVerified hd hs => exact process_of_status_error hd (by rw [hs]; rfl)
  | statusCorrupt hd hs hu hv =>
    apply process_of_status_error hd
    simp only [hs, Node.judgeStatus, if_neg hu, if_neg hv]
  | countUnavailable hd hc => exact process_of_verify_error hd (Node.verify_of_count_error _ hp _ hc)
  | quorumOutOfBound hd hc hlt => exact process_of_verify_error hd (Node.verify_of_bound _ hp _ hc hlt)
  | assignmentUnreadable hd ha =>
    exact process_of_verify_error hd.toAwaited
      (Node.verify_of_assignment_error _ hp _ hd (by rw [ha]; rfl))
  | quorumUnassigned hd ha =>
    exact process_of_verify_error hd.toAwaited
      (Node.verify_of_assignment_error _ hp _ hd (by rw [ha]; rfl))
  | sliceCount hd ha hlen =>
    apply process_of_verify_error hd.toAwaited
    rw [(Node.verify_of_assignment _ hp _ hd ha).1, SliceCheck.verify, if_pos hlen]
  | position hd ha hlen heq hgood hfault =>
    apply process_of_verify_error hd.toAwaited
    have hfirst := SliceCheck.firstFault?_eq_some_iff.2
      ⟨_, _, _, _, heq, hgood, by rw [Nat.zero_add]; exact hfault⟩
    rw [(Node.verify_of_assignment _ hp _ hd ha).1, SliceCheck.verify_fst _ _ hlen, hfirst]

end Service

end BlobSigner
