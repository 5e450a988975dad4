import BlobSigner.Proofs.Store
import BlobSigner.Proofs.Traced
import BlobSigner.Service
/-!
# The phases of a call

An admitted call examines its batch (`examine`: every request is verified and signed) and then
writes. The equations here take a call apart along these phases, for any surroundings: a rejection
in the first phase is the answer (`batchSign_of_rejected`), and what is signed goes to the second
(`batchSign_of_signed`), whose outcome is that of the writes in a row (`commit_of_putAll`,
`commit_of_stop`).
-/
namespace BlobSigner

/-- The node once one more call is in progress. -/
def Node.enter (n : Node) : Node :=
  { n with admission := { n.admission with ongoing := n.admission.ongoing + 1 } }

@[simp] theorem Node.max_enter (n : Node) : n.enter.admission.max = n.admission.max := rfl

@[simp] theorem Node.ongoing_enter (n : Node) :
    n.enter.admission.ongoing = n.admission.ongoing + 1 := rfl

/-- The node once a call in progress has ended. -/
def Node.release (n : Node) : Node := { n with admission := n.admission.leave }

/-- What is to be written for a request that has been signed. -/
def Signed.entry (s : Signed) : BlobKey × List Slice := (s.key, s.slices)

/-- A write that succeeded. -/
def Event.storing (entry : BlobKey × List Slice) : Event := .write entry.1 entry.2 true

@[simp] theorem Reply.isOk_of_error (f : Failure) : (Reply.of (.error f)).status.isOk = false := by
  cases f with
  | overloaded => decide
  | rejected i cause => cases cause <;> rfl
  | unwritten i total why => rfl

namespace Service

variable {svc : Service} {env : Surroundings} {nested : Batch → Node → Traced Reply}
variable {b : Batch} {n : Node}

/-! ## Requests in turn -/

theorem processAll_cons_of_error {i : Nat} {r : Request} {rs : List Request} {cause : Rejection}
    (h : (svc.process env nested r n).value = .error cause) :
    svc.processAll env nested i (r :: rs) n =
      ⟨.error (.rejected i cause), (svc.process env nested r n).node,
        (svc.process env nested r n).events ++
          (cause.warnings ++ (Failure.rejected i cause).records).map .log⟩ := by
  rw [processAll]
  simp only [h]

theorem processAll_cons_of_ok {i : Nat} {r : Request} {rs : List Request} {s : Signed}
    (h : (svc.process env nested r n).value = .ok s) :
    svc.processAll env nested i (r :: rs) n =
      ((svc.processAll env nested (i + 1) rs (svc.process env nested r n).node).map
        fun v => v.map (s :: ·)).after (svc.process env nested r n).events := by
  rw [processAll]
  simp only [h]

/-- Requests are signed only if the first of them is, and then the others. -/
theorem exists_of_processAll_cons {i : Nat} {r : Request} {rs : List Request} {signed : List Signed}
    (h : (svc.processAll env nested i (r :: rs) n).value = .ok signed) :
    ∃ s later, (svc.process env nested r n).value = .ok s ∧
      (svc.processAll env nested (i + 1) rs (svc.process env nested r n).node).value = .ok later ∧
      signed = s :: later := by
  cases hr : (svc.process env nested r n).value with
  | error cause =>
    rw [processAll_cons_of_error hr] at h
    cases h
  | ok s =>
    rw [processAll_cons_of_ok hr, Traced.value_after, Traced.map] at h
    cases hrest : (svc.processAll env nested (i + 1) rs (svc.process env nested r n).node).value with
    | error f =>
      rw [hrest] at h
      cases h
    | ok later =>
      rw [hrest] at h
      exact ⟨s, later, rfl, rfl, (Except.ok.inj h).symm⟩

/-- A failure of this phase is a rejection that names one of the requests. -/
theorem processAll_error {i : Nat} {rs : List Request} {f : Failure}
    (h : (svc.processAll env nested i rs n).value = .error f) :
    ∃ before r after cause, rs = before ++ r :: after ∧ f = .rejected (i + before.length) cause := by
  induction rs generalizing i n f with
  | nil =>
    rw [processAll] at h
    cases h
  | cons r rs ih =>
    cases hr : (svc.process env nested r n).value with
    | error cause =>
      rw [processAll_cons_of_error hr] at h
      cases h
      exact ⟨[], r, rs, cause, rfl, rfl⟩
    | ok s =>
      rw [processAll_cons_of_ok hr, Traced.value_after, Traced.map] at h
      cases hrest : (svc.processAll env nested (i + 1) rs (svc.process env nested r n).node).value with
      | error g =>
        rw [hrest] at h
        cases h
        obtain ⟨before, r', after, cause, rfl, rfl⟩ := ih hrest
        refine ⟨r :: before, r', after, cause, rfl, ?_⟩
        rw [List.length_cons, show i + 1 + before.length = i + (before.length + 1) by omega]
      | ok signed =>
        rw [hrest] at h
        cases h

/-! ## Writes in turn -/

theorem commit_of_putAll {i total : Nat} {signed : List Signed} {st : Store}
    (h : Store.putAll (signed.map Signed.entry) n.store = .ok st) :
    commit i total signed n =
      ⟨.ok (), { n with store := st }, signed.map fun s => Event.storing s.entry⟩ := by
  induction signed generalizing i n with
  | nil =>
    cases h
    rfl
  | cons s rest ih =>
    cases hput : n.store.putSlices s.key s.slices with
    | error why => simp [Store.putAll, Signed.entry, hput] at h
    | ok st₁ =>
      have hrest : Store.putAll (rest.map Signed.entry) st₁ = .ok st := by
        simpa [Store.putAll, Signed.entry, hput] using h
      rw [commit]
      simp only [hput, ih (n := { n with store := st₁ }) hrest]
      rfl

/-- Up to the first write that fails all succeed, and none is tried after it. -/
theorem commit_of_stop {i total : Nat} {done rest : List Signed} {s : Signed} {st : Store}
    {why : String} (h : Store.putAll (done.map Signed.entry) n.store = .ok st)
    (hfail : st.putSlices s.key s.slices = .error why) :
    commit i total (done ++ s :: rest) n =
      ⟨.error (.unwritten (i + done.length) total why), { n with store := st },
        (done.map fun s => Event.storing s.entry) ++ .write s.key s.slices false ::
          (Failure.unwritten (i + done.length) total why).records.map .log⟩ := by
  induction done generalizing i n with
  | nil =>
    cases h
    rw [List.nil_append, commit, hfail]
    rfl
  | cons s' done ih =>
    cases hput : n.store.putSlices s'.key s'.slices with
    | error why => simp [Store.putAll, Signed.entry, hput] at h
    | ok st₁ =>
      have hdone : Store.putAll (done.map Signed.entry) st₁ = .ok st := by
        simpa [Store.putAll, Signed.entry, hput] using h
      rw [List.cons_append, commit]
      simp only [hput, ih (n := { n with store := st₁ }) hdone, List.length_cons]
      rw [show i + 1 + done.length = i + (done.length + 1) by omega]
      rfl

theorem commit_or_stop (signed : List Signed) (st : Store) :
    (∃ st', Store.putAll (signed.map Signed.entry) st = .ok st') ∨
      ∃ done s rest st' why, signed = done ++ s :: rest ∧
        Store.putAll (done.map Signed.entry) st = .ok st' ∧
        st'.putSlices s.key s.slices = .error why := by
  rcases Store.putAll_or_stops (signed.map Signed.entry) st with
    h | ⟨done, k, slices, rest, st', why, heq, hdone, hfail⟩
  · exact Or.inl h
  · obtain ⟨done', tail, rfl, rfl, htail⟩ := List.map_eq_append_iff.1 heq
    obtain ⟨s, rest', rfl, hs, -⟩ := List.map_eq_cons_iff.1 htail
    cases hs
    exact Or.inr ⟨done', s, rest', st', why, rfl, hdone, hfail⟩

/-! ## A call -/

theorem batchSignWithin_of_full {depth : Nat} (h : ¬ n.admission.ongoing < n.admission.max) :
    svc.batchSignWithin env depth b n = shed n := by
  cases depth with
  | zero => rfl
  | succ depth => rw [batchSignWithin, Admission.enter?, if_neg h]

theorem batchSignWithin_of_room {depth : Nat} (h : n.admission.ongoing < n.admission.max) :
    svc.batchSignWithin env (depth + 1) b n =
      svc.admitted env (svc.batchSignWithin env depth) b n.enter := by
  rw [batchSignWithin, Admission.enter?, if_pos h]
  rfl

theorem batchSign_of_full (h : ¬ n.admission.ongoing < n.admission.max) :
    svc.batchSign env b n = shed n :=
  batchSignWithin_of_full h

/-- The first phase of an admitted call. -/
def examine (svc : Service) (env : Surroundings) (b : Batch) (n : Node) :
    Traced (Except Failure (List Signed)) :=
  svc.processAll env (svc.batchSignWithin env (n.admission.max - 1)) 0 b.requests n.enter

theorem batchSign_of_room (h : n.admission.ongoing < n.admission.max) :
    svc.batchSign env b n =
      svc.admitted env (svc.batchSignWithin env (n.admission.max - 1)) b n.enter := by
  obtain ⟨depth, hd⟩ : ∃ depth, n.admission.max = depth + 1 := ⟨n.admission.max - 1, by omega⟩
  rw [batchSign, hd, batchSignWithin_of_room h]
  rfl

/-- The two phases of an admitted call, one after the other. -/
theorem signAll_eq_examine (svc : Service) (env : Surroundings) (b : Batch) (n : Node) :
    svc.signAll env (svc.batchSignWithin env (n.admission.max - 1)) b n.enter =
      ((svc.examine env b n).andThen fun signed n =>
        (commit 0 signed.length signed n).andThen fun _ n =>
          ⟨.ok (signed.map Signed.signature), n,
            [.log (signedRecord b (signed.map Signed.signature))]⟩).after
        [.log (receivedRecord b)] :=
  rfl

theorem batchSign_of_rejected (h : n.admission.ongoing < n.admission.max) {f : Failure}
    (hf : (svc.examine env b n).value = .error f) :
    svc.batchSign env b n = ⟨.of (.error f), (svc.examine env b n).node.release,
      .enter (n.admission.ongoing + 1) :: .log (receivedRecord b) :: (svc.examine env b n).events ++
        [.leave (svc.examine env b n).node.admission.leave.ongoing]⟩ := by
  rw [batchSign_of_room h, admitted, signAll_eq_examine, Traced.andThen_of_error hf]
  rfl

/-- The second phase, and what it adds to the log when all is written. -/
theorem batchSign_of_signed (h : n.admission.ongoing < n.admission.max) {signed : List Signed}
    (hs : (svc.examine env b n).value = .ok signed) :
    let w := commit 0 signed.length signed (svc.examine env b n).node
    let signatures := signed.map Signed.signature
    (∀ f, w.value = .error f → svc.batchSign env b n = ⟨.of (.error f), w.node.release,
      .enter (n.admission.ongoing + 1) :: .log (receivedRecord b) ::
        ((svc.examine env b n).events ++ w.events) ++ [.leave w.node.admission.leave.ongoing]⟩) ∧
    (w.value = .ok () → svc.batchSign env b n = ⟨.of (.ok signatures), w.node.release,
      .enter (n.admission.ongoing + 1) :: .log (receivedRecord b) ::
        ((svc.examine env b n).events ++ (w.events ++ [.log (signedRecord b signatures)])) ++
        [.leave w.node.admission.leave.ongoing]⟩) := by
  intro w signatures
  constructor
  · intro f hf
    rw [batchSign_of_room h, admitted, signAll_eq_examine, Traced.andThen_of_ok hs,
      Traced.andThen_of_error (e := f) hf]
    rfl
  · intro hw
    rw [batchSign_of_room h, admitted, signAll_eq_examine, Traced.andThen_of_ok hs,
      Traced.andThen_of_ok (a := ()) hw]
    rfl

end Service

end BlobSigner
