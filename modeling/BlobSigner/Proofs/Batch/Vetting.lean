import BlobSigner.Proofs.Batch.Outcome
import BlobSigner.Proofs.Bn254.Division
/-!
# After the checks only writes can fail

The work on a request is its checks and then its signature (`process_eq_vet`). As point arithmetic
never fails, a request is signed as soon as it passes its checks (`exists_process_iff`), so a batch
whose requests all pass is signed, and what is left to fail are its writes (`arithmetic_total`). This
holds in all surroundings, also where look-ups have further batches signed.
-/
namespace BlobSigner.Service

/-! ## The checks of a request -/

section

variable (svc : Service) (env : Surroundings) (nested : Batch → Node → Traced Reply)

/-- All of the work on a request but the signing. -/
def vet (r : Request) (n : Node) : Traced (Except Rejection Decoded) :=
  (Traced.of (r.decode svc.payloadLimit) n).andThen fun d n =>
    (n.gate d.key).andThen fun _ n =>
      (n.verify env nested svc.pool d).andThen fun _ n => .of (.ok d) n

/-- Each request passes its checks on the node that those of the requests before it leave. -/
def VetsAll : Node → List Request → Prop
  | _, [] => True
  | n, r :: rs => (∃ d, (svc.vet env nested r n).value = .ok d) ∧
      VetsAll (svc.vet env nested r n).node rs

end

variable {svc : Service} {env : Surroundings} {nested : Batch → Node → Traced Reply}
variable {b : Batch} {n : Node} {r : Request}

theorem process_eq_vet (r : Request) (n : Node) :
    svc.process env nested r n =
      (svc.vet env nested r n).andThen fun d n => .of (svc.signDecoded d) n := by
  simp only [process, vet, Traced.andThen_assoc, Traced.andThen_of]

theorem exists_signDecoded (svc : Service) (d : Decoded) : ∃ s, svc.signDecoded d = .ok s := by
  obtain ⟨signature, h⟩ := d.key.exists_sign d.commitment svc.key
  exact ⟨⟨signature, d.key, d.slices⟩, by rw [signDecoded, h]⟩

theorem node_process (r : Request) (n : Node) :
    (svc.process env nested r n).node = (svc.vet env nested r n).node := by
  rw [process_eq_vet]
  cases h : (svc.vet env nested r n).value with
  | error cause => rw [Traced.andThen_of_error h]
  | ok d =>
    rw [Traced.andThen_of_ok h]
    rfl

theorem exists_process_iff :
    (∃ s, (svc.process env nested r n).value = .ok s) ↔
      ∃ d, (svc.vet env nested r n).value = .ok d := by
  rw [process_eq_vet]
  constructor
  · rintro ⟨s, h⟩
    obtain ⟨d, hd, -⟩ := Traced.exists_of_andThen_ok h
    exact ⟨d, hd⟩
  · rintro ⟨d, hd⟩
    obtain ⟨s, hs⟩ := svc.exists_signDecoded d
    exact ⟨s, by rw [Traced.andThen_of_ok hd]; exact hs⟩

/-! ## The checks of a batch -/

/-- The first phase comes to its end exactly if all requests pass their checks. -/
theorem exists_processAll_iff {i : Nat} {rs : List Request} :
    (∃ signed, (svc.processAll env nested i rs n).value = .ok signed) ↔
      svc.VetsAll env nested n rs := by
  induction rs generalizing i n with
  | nil => exact ⟨fun _ => trivial, fun _ => ⟨[], rfl⟩⟩
  | cons r rs ih =>
    rw [VetsAll, ← exists_process_iff, ← node_process, ← ih (i := i + 1)]
    constructor
    · rintro ⟨signed, h⟩
      obtain ⟨s, later, hr, hrest, -⟩ := exists_of_processAll_cons h
      exact ⟨⟨s, hr⟩, later, hrest⟩
    · rintro ⟨⟨s, hr⟩, later, hrest⟩
      refine ⟨s :: later, ?_⟩
      rw [processAll_cons_of_ok hr, Traced.value_after, Traced.map, hrest]
      rfl

/-- How a call ends that has signed its batch: all is written, or one write fails after those before
it have succeeded. -/
theorem ends_of_examine (h : n.admission.ongoing < n.admission.max) {signed : List Signed}
    (hs : (svc.examine env b n).value = .ok signed) :
    (svc.batchSign env b n).value = ⟨.ok, signed.map Signed.signature⟩ ∨
      ∃ done s rest st why, signed = done ++ s :: rest ∧
        Store.putAll (done.map Signed.entry) (svc.examine env b n).node.store = .ok st ∧
        st.putSlices s.key s.slices = .error why ∧
        (svc.batchSign env b n).value =
          ⟨⟨.internal, s!"request {done.length}: " ++ "put slice error: " ++ why⟩, []⟩ := by
  obtain ⟨hbad, hgood⟩ := batchSign_of_signed h hs
  rcases commit_or_stop signed (svc.examine env b n).node.store with
    ⟨st, hst⟩ | ⟨done, s, rest, st, why, rfl, hdone, hfail⟩
  · rw [commit_of_putAll hst] at hgood
    left
    rw [hgood rfl]
    rfl
  · rw [commit_of_stop hdone hfail, Nat.zero_add] at hbad
    right
    refine ⟨done, s, rest, st, why, rfl, hdone, hfail, ?_⟩
    rw [hbad _ rfl]
    rfl

/-- **Point arithmetic never fails, so after the checks only writes can.** For any coordinates, on
the curve or off it, sums, doubles and multiples exist, and all that is inverted on the way is other
than zero and has an inverse; so the subgroup check has an answer. (Opposites and the equation of the
curve invert nothing.) Coordinates fit thirty-two bytes, so points have their byte forms. Hence every
blob can be signed, and a batch whose requests all pass their checks is signed: what is left to fail
is one of its writes, after those before it. -/
theorem arithmetic_total :
    (∀ P Q : G1, ∃ R, P.tryAdd Q = .ok R ∧ (P.addition Q).Succeeds R) ∧
    (∀ P : G1, ∃ R, P.tryDouble = .ok R ∧ P.doubling.Succeeds R) ∧
    (∀ (P : G1) (k : Fr), ∃ R, P.tryMul k = .ok R ∧ (G1.multiple k.val P).Succeeds R) ∧
    (∀ P : G1, ∃ R, (G1.multiple BlobSigner.r P).Succeeds R ∧ P.inSubgroup? = .ok (R == .infinity)) ∧
    (∀ P : G1, (∃ bytes, P.encode = .ok bytes) ∧ ∃ form, P.verifierForm = .ok form) ∧
    (∀ a : Fq, 0 ≤ (a.val : Int) ∧ (a.val : Int) < 2 ^ 256 ∧
      (∃ bytes, a.toBigEndian = .ok bytes) ∧ ∃ bytes, a.toLittleEndian = .ok bytes) ∧
    (∀ (k : BlobKey) (C : G1) (key : Fr), ∃ H S signature,
      k.hashPoint C = .ok H ∧ H.tryMul key = .ok S ∧ S.encode = .ok signature) ∧
    (∀ bytes e, Commitment.decode bytes ≠ .error (.arithmetic e)) ∧
    ∀ (svc : Service) (env : Surroundings) (b : Batch) (n : Node),
      n.admission.ongoing < n.admission.max →
      svc.VetsAll env (svc.batchSignWithin env (n.admission.max - 1)) n.enter b.requests →
      ∃ signed, (svc.examine env b n).value = .ok signed ∧
        List.Forall₂ (Signs svc) b.requests signed ∧
        ((svc.batchSign env b n).value = ⟨.ok, signed.map Signed.signature⟩ ∨
          ∃ done s rest st why, signed = done ++ s :: rest ∧
            Store.putAll (done.map Signed.entry) (svc.examine env b n).node.store = .ok st ∧
            st.putSlices s.key s.slices = .error why ∧
            (svc.batchSign env b n).value =
              ⟨⟨.internal, s!"request {done.length}: " ++ "put slice error: " ++ why⟩, []⟩) := by
  refine ⟨G1.exists_tryAdd_division, G1.exists_tryDouble_division, ?_, ?_, ?_, ?_, ?_,
    Commitment.decode_ne_arithmetic, ?_⟩
  · exact fun P k => G1.exists_tryNsmul_division k.val P
  · intro P
    obtain ⟨R, hR, hdivision⟩ := G1.exists_tryNsmul_division BlobSigner.r P
    refine ⟨R, hdivision, ?_⟩
    rw [G1.inSubgroup?, hR]
    rfl
  · exact fun P => ⟨P.exists_encode, P.exists_verifierForm⟩
  · intro a
    have hlt := a.val_lt
    have hq : q < 2 ^ 256 := by decide
    exact ⟨by omega, by omega, Fq.exists_toBigEndian a, Fq.exists_toLittleEndian a⟩
  · intro k C key
    obtain ⟨signature, hsign⟩ := k.exists_sign C key
    obtain ⟨H, S, hH, hS, hencode⟩ := BlobKey.sign_eq_ok_iff.1 hsign
    exact ⟨H, S, signature, hH, hS, hencode⟩
  · intro svc env b n hroom hvets
    obtain ⟨signed, hsigned⟩ := exists_processAll_iff.2 hvets
    exact ⟨signed, hsigned, signs_of_processAll hsigned, ends_of_examine hroom hsigned⟩

/-- A batch that passes its checks where the storage takes no write. -/
theorem arithmetic_total_unwritten :
    let svc : Service := ⟨1, 64, ⟨2, by decide⟩, by decide⟩
    let env : Surroundings := ⟨fun _ _ => .answer (.ok 3), fun _ _ _ => .accepted, fun _ => []⟩
    let k : BlobKey := ⟨5, 2, .zero⟩
    let store := ((Store.empty.setStatus k .uploaded).setAssignment k.quorumKey [7]).setOutage false
      false (some 0) none
    let n : Node := { Node.init .idle with store := store }
    let b : Batch := ⟨[⟨5, 2, Bytes32.zero.toList, 1 :: List.replicate 31 0 ++ 2 :: List.replicate 31 0,
      [[0, 0, 0, 0, 0, 0, 0, 7, 0, 0, 0, 0]]⟩], ""⟩
    n.admission.ongoing < n.admission.max ∧
      svc.VetsAll env (svc.batchSignWithin env (n.admission.max - 1)) n.enter b.requests ∧
      ∃ why, (svc.batchSign env b n).value =
        ⟨⟨.internal, s!"request {0}: " ++ "put slice error: " ++ why⟩, []⟩ := by
  intro svc env k store n b
  have hroom : n.admission.ongoing < n.admission.max := by decide
  have hp : env.Answers fun _ _ => .ok 3 := fun _ _ => rfl
  have hcheck : ∀ s C root, env.check s C root = .accepted := fun _ _ _ => rfl
  have hall : svc.AcceptsAll env (fun _ _ => .ok 3) n b.requests :=
    ⟨⟨_, Request.passes_of_generator rfl rfl (by decide) rfl hcheck⟩, trivial⟩
  have hvets : svc.VetsAll env (svc.batchSignWithin env (n.admission.max - 1)) n.enter b.requests := by
    obtain ⟨signed, -, hvalue, -⟩ := processAll_of_accepted hp (acceptsAll_enter.2 hall)
    exact (exists_processAll_iff (i := 0)).1 ⟨signed, hvalue⟩
  obtain ⟨-, -, -, -, -, -, -, -, hbatch⟩ := arithmetic_total
  obtain ⟨signed, -, hsigned, hok | ⟨done, s, rest, st, why, heq, hdone, hfail, hvalue⟩⟩ :=
    hbatch svc env b n hroom hvets
  · obtain ⟨f, hf⟩ := batchSign_of_unwritten hp hroom hall fun h => absurd (h 0 rfl) (by decide)
    have hbad := Reply.isOk_of_error f
    rw [← hf, hok] at hbad
    cases hbad
  · have hlength : 1 = done.length + (rest.length + 1) := by
      rw [← List.length_cons, ← List.length_append, ← heq]
      exact hsigned.length_eq
    have hnone : done = [] := List.eq_nil_of_length_eq_zero (by omega)
    subst hnone
    exact ⟨hroom, hvets, why, hvalue⟩

end BlobSigner.Service
