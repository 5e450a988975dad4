import BlobSigner.Proofs.Batch.Counts
import BlobSigner.Proofs.Batch.Verdict
/-!
# How a batch ends that has been accepted

When look-ups have no batch signed, a call that gets as far as its writes has accepted every request
(`acceptsAll_of_written`). It ends with all of its writes or at the first that fails, and besides the
slices it leaves on the node what the requests have asked the chain for (`outcome_of_accepted`).
-/
namespace BlobSigner

variable {reply : Nat → UInt64 → Except LookupError UInt64} {n m : Node} {r : Request}
variable {rs : List Request}

/-! ## What a node knows of the chain -/

namespace Node

/-- Asking the chain leaves the storage alone, and does not depend on it. -/
theorem served_withStore (n : Node) (st : Store) (r : Request) :
    ({ n with store := st } : Node).served reply r = { n.served reply r with store := st } := by
  unfold served asked
  cases n.counts.get? r.epoch with
  | some count => rfl
  | none => cases reply n.lookups r.epoch <;> rfl

theorem foldl_served_withStore (n : Node) (st : Store) (rs : List Request) :
    rs.foldl (served reply) { n with store := st } = { rs.foldl (served reply) n with store := st } := by
  induction rs generalizing n with
  | nil => rfl
  | cons r rs ih => rw [List.foldl_cons, List.foldl_cons, served_withStore, ih]

/-- Nothing is asked that is known. -/
theorem served_of_known {count : UInt64} (h : n.counts.get? r.epoch = some count) :
    n.served reply r = { n with rounds := n.rounds + 1 } := by
  unfold served asked
  rw [h]

theorem retains_served (n : Node) (r : Request) : (n.served reply r).Retains n := by
  unfold served asked
  cases hr : n.counts.get? r.epoch with
  | some count => exact .of_eq rfl
  | none =>
    cases reply n.lookups r.epoch with
    | error e => exact .of_eq rfl
    | ok learnt => exact retains_putCount (n := { n with lookups := n.lookups + 1 }) (Or.inl hr)

theorem retains_foldl_served (n : Node) (rs : List Request) :
    (rs.foldl (served reply) n).Retains n := by
  induction rs generalizing n with
  | nil => exact .of_eq rfl
  | cons r rs ih => exact (ih (n.served reply r)).trans (n.retains_served r)

/-- The count that decided on a request is known from then on. -/
theorem get?_served_of_countOf {count : UInt64} (h : n.countOf reply r.epoch = .ok count) :
    (n.served reply r).counts.get? r.epoch = some count := by
  unfold countOf at h
  unfold served asked
  cases hr : n.counts.get? r.epoch with
  | some known =>
    rw [hr] at h
    cases h
    exact hr
  | none =>
    rw [hr] at h
    simp only at h
    simp only [h, putCount, Table.get?_insert, if_pos]

end Node

/-- A request passes wherever its blob, its quorum and the count of its epoch are the same. -/
theorem Request.Passes.transfer {limit : UInt64} {check : SliceCheck} {st st' : Store} {d : Decoded}
    {counts counts' : UInt64 → Except LookupError UInt64} (h : r.Passes limit check st counts d)
    (hstatus : st'.readStatus = st.readStatus) (hassigned : st'.readAssignment = st.readAssignment)
    (hcount : counts' d.key.epoch = counts d.key.epoch) : r.Passes limit check st' counts' d where
  toDecodes := h.toDecodes
  uploaded := by rw [hstatus, h.uploaded]
  seated := by rw [hcount]; exact h.seated
  assigned := by rw [hassigned, h.assigned]
  proofs := h.proofs

namespace Service

variable {svc : Service} {env : Surroundings} {nested : Batch → Node → Traced Reply} {b : Batch}

/-! ## Acceptance again -/

/-- The request meets every check on a node that knows the count of its epoch. -/
def Known (svc : Service) (check : SliceCheck) (n : Node) (r : Request) : Prop :=
  ∃ d count, n.counts.get? r.epoch = some count ∧
    r.Passes svc.payloadLimit check n.store (fun _ => .ok count) d

/-- The requests of a batch that was accepted are known afterwards, as long as reads give the same. -/
theorem known_of_accepted (h : svc.AcceptsAll env reply n rs)
    (hcounts : m.counts = (rs.foldl (Node.served reply) n).counts)
    (hstatus : m.store.readStatus = n.store.readStatus)
    (hassigned : m.store.readAssignment = n.store.readAssignment) :
    ∀ r ∈ rs, svc.Known env.check m r := by
  induction rs generalizing n with
  | nil => exact nofun
  | cons r rs ih =>
    obtain ⟨⟨d, hd⟩, hrs⟩ := h
    refine List.forall_mem_cons.2 ⟨?_, ?_⟩
    · obtain ⟨count, hcount, -⟩ := hd.seated
      refine ⟨d, count, ?_, hd.transfer hstatus hassigned hcount.symm⟩
      rw [hd.epoch] at hcount
      rw [hcounts, List.foldl_cons]
      exact Node.retains_foldl_served _ rs _ _ (Node.get?_served_of_countOf hcount)
    · exact ih hrs hcounts (by rw [hstatus, Node.store_served]) (by rw [hassigned, Node.store_served])

/-- Requests that are known are accepted, whatever the chain says, and it is not asked. -/
theorem acceptsAll_of_known (h : ∀ r ∈ rs, svc.Known env.check n r) :
    svc.AcceptsAll env reply n rs ∧
      rs.foldl (Node.served reply) n = { n with rounds := n.rounds + rs.length } := by
  induction rs generalizing n with
  | nil => exact ⟨trivial, rfl⟩
  | cons r rs ih =>
    obtain ⟨⟨d, count, hcount, hd⟩, hrs⟩ := List.forall_mem_cons.1 h
    obtain ⟨hall, hlast⟩ := ih (n := { n with rounds := n.rounds + 1 }) hrs
    rw [AcceptsAll, List.foldl_cons, Node.served_of_known hcount]
    refine ⟨⟨⟨d, hd.transfer rfl rfl ?_⟩, hall⟩, ?_⟩
    · simp only [Node.countOf, hd.epoch, hcount]
    · rw [hlast, List.length_cons, Nat.add_right_comm, Nat.add_assoc]

/-- Which requests are accepted depends on what is read from the storage, and nothing else of it. -/
theorem acceptsAll_withStore {st : Store} (hstatus : st.readStatus = n.store.readStatus)
    (hassigned : st.readAssignment = n.store.readAssignment) :
    svc.AcceptsAll env reply { n with store := st } rs ↔ svc.AcceptsAll env reply n rs := by
  induction rs generalizing n with
  | nil => exact Iff.rfl
  | cons r rs ih =>
    rw [AcceptsAll, AcceptsAll, Node.served_withStore, ih (by rwa [Node.store_served])
      (by rwa [Node.store_served])]
    refine and_congr_left fun _ => exists_congr fun d => ?_
    exact ⟨fun h => h.transfer hstatus.symm hassigned.symm rfl,
      fun h => h.transfer hstatus hassigned rfl⟩

/-! ## Signatures are determined by their requests -/

theorem Signs.unique {s s' : Signed} (h : svc.Signs r s) (h' : svc.Signs r s') : s = s' := by
  obtain ⟨d, hd, hkey, hslices, hsign⟩ := h.signed
  obtain ⟨d', hd', hkey', hslices', hsign'⟩ := h'.signed
  cases (Request.decode_of_decodes hd).symm.trans (Request.decode_of_decodes hd')
  obtain ⟨signature, key, slices⟩ := s
  obtain ⟨signature', key', slices'⟩ := s'
  cases hkey.trans hkey'.symm
  cases hslices.trans hslices'.symm
  cases hsign.symm.trans hsign'
  rfl

theorem signed_unique {signed signed' : List Signed} (h : List.Forall₂ (Signs svc) rs signed)
    (h' : List.Forall₂ (Signs svc) rs signed') : signed = signed' := by
  induction h generalizing signed' with
  | nil =>
    cases h'
    rfl
  | cons hs _ ih =>
    cases h' with
    | cons hs' hrest => rw [hs.unique hs', ih hrest]

/-! ## Calls that get to their writes -/

/-- Look-ups that are answered at once make no calls. -/
theorem not_calls_of_answers (hp : env.Answers reply) {epoch : UInt64} {es : List Event} {b : Batch} :
    ¬ n.Calls env nested epoch es b m := by
  rintro ⟨-, next, hreaches⟩
  rw [hp] at hreaches
  cases hreaches

/-- Then nothing is written while requests are processed. -/
theorem not_write_of_answers (hp : env.Answers reply) {i : Nat} {k : BlobKey} {slices : List Slice}
    {stored : Bool} : .write k slices stored ∉ (svc.processAll env nested i rs n).events := by
  intro hmem
  obtain ⟨before, after, heq⟩ := List.append_of_mem hmem
  have hoccurs : Occurs (svc.processAll env nested i rs n).events before (.write k slices stored) :=
    ⟨after, by rw [heq, List.append_assoc, List.singleton_append]⟩
  obtain ⟨_, r, _, _, _, -, -, -, hr⟩ := process_of_write hoccurs
  obtain ⟨d, es, b, m, _, -, hcalls, -, -⟩ := calls_of_process hr
  exact not_calls_of_answers hp hcalls

/-- A call that is answered well, or makes a write, has accepted its batch. -/
theorem acceptsAll_of_written (hp : env.Answers reply)
    (h : (svc.batchSign env b n).value.status.isOk ∨
      ∃ k slices stored, .write k slices stored ∈ (svc.batchSign env b n).events) :
    n.admission.ongoing < n.admission.max ∧ svc.AcceptsAll env reply n b.requests := by
  by_cases hroom : n.admission.ongoing < n.admission.max
  · refine ⟨hroom, ?_⟩
    rcases acceptsAll_or_refuses svc env reply n b.requests with
      hall | ⟨before, r, after, cause, heq, hbefore, hr⟩
    · exact hall
    · rw [batchSign_of_rejected hroom (examine_of_refused hp heq hbefore hr)] at h
      rcases h with hok | ⟨k, slices, stored, hwrite⟩
      · rw [Reply.isOk_of_error] at hok
        cases hok
      · simp only [List.cons_append, List.mem_cons, List.mem_append, reduceCtorEq, false_or, or_false,
          List.not_mem_nil] at hwrite
        exact absurd hwrite (not_write_of_answers hp)
  · rw [batchSign_of_full hroom] at h
    rcases h with hok | ⟨k, slices, stored, hwrite⟩
    · rw [shed, Reply.isOk_of_error] at hok
      cases hok
    · simp [shed] at hwrite

/-! ## The end of a call -/

/-- What a call leaves behind that has accepted its batch and signed its requests. -/
inductive Concludes (svc : Service) (env : Surroundings)
    (reply : Nat → UInt64 → Except LookupError UInt64) (b : Batch) (n : Node) (signed : List Signed) :
    Prop where
  | written {st : Store} : Store.putAll (signed.map Signed.entry) n.store = .ok st →
      (svc.batchSign env b n).value = .of (.ok (signed.map Signed.signature)) →
      (svc.batchSign env b n).node =
        { b.requests.foldl (Node.served reply) n with store := st } →
      Concludes svc env reply b n signed
  | stopped {done rest : List Signed} {s : Signed} {st : Store} {why : String} :
      signed = done ++ s :: rest → Store.putAll (done.map Signed.entry) n.store = .ok st →
      st.putSlices s.key s.slices = .error why →
      (svc.batchSign env b n).value = .of (.error (.unwritten done.length signed.length why)) →
      (svc.batchSign env b n).node =
        { b.requests.foldl (Node.served reply) n with store := st } →
      .write s.key s.slices false ∈ (svc.batchSign env b n).events →
      Concludes svc env reply b n signed

theorem outcome_of_accepted (hp : env.Answers reply) (h : n.admission.ongoing < n.admission.max)
    (hall : svc.AcceptsAll env reply n b.requests) :
    ∃ signed, List.Forall₂ (Signs svc) b.requests signed ∧ Concludes svc env reply b n signed := by
  obtain ⟨signed, hsigned, hvalue, hnode⟩ : ∃ signed, List.Forall₂ (Signs svc) b.requests signed ∧
      (svc.examine env b n).value = .ok signed ∧
      (svc.examine env b n).node = b.requests.foldl (Node.served reply) n.enter :=
    processAll_of_accepted hp (acceptsAll_enter.2 hall)
  rw [Node.foldl_served_enter] at hnode
  have hstore : (svc.examine env b n).node.store = n.store := by
    rw [hnode]
    exact Node.store_foldl_served n b.requests
  -- a call that ends leaves as many in progress as before
  have hrelease : ∀ st, ({ (b.requests.foldl (Node.served reply) n).enter with store := st }).release =
      { b.requests.foldl (Node.served reply) n with store := st } := fun st => rfl
  obtain ⟨hbad, hgood⟩ := batchSign_of_signed h hvalue
  refine ⟨signed, hsigned, ?_⟩
  rcases commit_or_stop signed n.store with ⟨st, hst⟩ | ⟨done, s, rest, st, why, rfl, hdone, hfail⟩
  · rw [commit_of_putAll (by rwa [hstore]), hnode, hrelease] at hgood
    exact .written hst (by rw [hgood rfl]) (by rw [hgood rfl])
  · rw [commit_of_stop (by rwa [hstore]) hfail, hnode, hrelease] at hbad
    refine .stopped rfl hdone hfail ?_ ?_ ?_
    · rw [hbad _ rfl, Nat.zero_add]
    · rw [hbad _ rfl]
    · rw [hbad _ rfl]
      simp

namespace Concludes

variable {signed : List Signed}

/-- With room for the writes all of them are made. -/
theorem of_room (h : Concludes svc env reply b n signed)
    (hroom : ∀ left, n.store.outage.writesLeft = some left → signed.length ≤ left) :
    ∃ st, Store.putAll (signed.map Signed.entry) n.store = .ok st ∧
      (svc.batchSign env b n).value = .of (.ok (signed.map Signed.signature)) ∧
      (svc.batchSign env b n).node = { b.requests.foldl (Node.served reply) n with store := st } := by
  cases h with
  | written hst hvalue hnode => exact ⟨_, hst, hvalue, hnode⟩
  | @stopped done rest s st why heq hdone hfail _ _ _ =>
    rw [← List.length_map Signed.entry] at hroom
    have hall := Store.putAll_eq_ok_iff.2 ⟨hroom, rfl⟩
    rw [heq, List.map_append, List.map_cons] at hall
    obtain ⟨st₁, hst₁, hrest⟩ := Store.exists_of_putAll_append hall
    cases hdone.symm.trans hst₁
    simp [Store.putAll, Signed.entry, hfail] at hrest

/-- However it ends, the writes that are made are the first ones of the batch. -/
theorem exists_node (h : Concludes svc env reply b n signed) :
    ∃ done rest st, signed = done ++ rest ∧ Store.putAll (done.map Signed.entry) n.store = .ok st ∧
      (svc.batchSign env b n).node = { b.requests.foldl (Node.served reply) n with store := st } := by
  cases h with
  | written hst _ hnode => exact ⟨signed, [], _, (List.append_nil _).symm, hst, hnode⟩
  | stopped heq hdone _ _ hnode _ => exact ⟨_, _, _, heq, hdone, hnode⟩

theorem value_of_isOk (h : Concludes svc env reply b n signed)
    (hok : (svc.batchSign env b n).value.status.isOk) :
    (svc.batchSign env b n).value = .of (.ok (signed.map Signed.signature)) := by
  cases h with
  | written _ hvalue _ => exact hvalue
  | stopped _ _ _ hvalue _ _ =>
    rw [hvalue, Reply.isOk_of_error] at hok
    cases hok

end Concludes

/-! ## Calls that are answered well -/

/-- The batch is accepted, and the storage takes the writes of what is signed. -/
structure Completes (svc : Service) (env : Surroundings)
    (reply : Nat → UInt64 → Except LookupError UInt64) (rs : List Request) (n : Node)
    (signed : List Signed) (st : Store) : Prop where
  accepted : svc.AcceptsAll env reply n rs
  signs : List.Forall₂ (Signs svc) rs signed
  stores : Store.putAll (signed.map Signed.entry) n.store = .ok st

/-- With room for its writes, a batch that is accepted completes. -/
theorem completes_of_room {signed : List Signed} (hall : svc.AcceptsAll env reply n rs)
    (hsigned : List.Forall₂ (Signs svc) rs signed)
    (hroom : ∀ left, n.store.outage.writesLeft = some left → rs.length ≤ left) :
    ∃ st, svc.Completes env reply rs n signed st := by
  rw [hsigned.length_eq, ← List.length_map Signed.entry] at hroom
  exact ⟨_, hall, hsigned, Store.putAll_eq_ok_iff.2 ⟨hroom, rfl⟩⟩

theorem exists_completes (hp : env.Answers reply) (h : n.admission.ongoing < n.admission.max)
    (hok : (svc.batchSign env b n).value.status.isOk) :
    ∃ signed st, svc.Completes env reply b.requests n signed st := by
  obtain ⟨-, hall⟩ := acceptsAll_of_written hp (Or.inl hok)
  obtain ⟨signed, hsigned, hends⟩ := outcome_of_accepted hp h hall
  cases hends with
  | written hst _ _ => exact ⟨signed, _, hall, hsigned, hst⟩
  | stopped _ _ _ hvalue _ _ =>
    rw [hvalue, Reply.isOk_of_error] at hok
    cases hok

theorem Completes.result {signed : List Signed} {st : Store}
    (hc : svc.Completes env reply b.requests n signed st) (hp : env.Answers reply)
    (h : n.admission.ongoing < n.admission.max) :
    (svc.batchSign env b n).value = .of (.ok (signed.map Signed.signature)) ∧
      (svc.batchSign env b n).node = { b.requests.foldl (Node.served reply) n with store := st } := by
  obtain ⟨signed', hsigned', hends⟩ := outcome_of_accepted hp h hc.accepted
  cases signed_unique hsigned' hc.signs
  have hroom := (Store.putAll_eq_ok_iff.1 hc.stores).1
  rw [List.length_map] at hroom
  obtain ⟨st', hst', hvalue, hnode⟩ := hends.of_room hroom
  cases hst'.symm.trans hc.stores
  exact ⟨hvalue, hnode⟩

theorem Completes.isOk {signed : List Signed} {st : Store}
    (hc : svc.Completes env reply b.requests n signed st) (hp : env.Answers reply)
    (h : n.admission.ongoing < n.admission.max) : (svc.batchSign env b n).value.status.isOk := by
  rw [(hc.result hp h).1]
  rfl

end Service

/-! ## A request that passes -/

/-- A request with the generator as commitment and a single empty slice passes where its quorum has
been assigned this slice. -/
theorem Request.passes_of_generator {check : SliceCheck} {store : Store}
    {counts : UInt64 → Except LookupError UInt64} {epoch quorum count : UInt64}
    (huploaded : store.readStatus ⟨epoch, quorum, .zero⟩ = .ok (some .uploaded))
    (hcount : counts epoch = .ok count) (hlt : quorum < count)
    (hassigned : store.readAssignment ⟨epoch, quorum⟩ = .ok (some [7]))
    (hcheck : ∀ s C root, check s C root = .accepted) :
    Request.Passes 64 check store counts ⟨epoch, quorum, Bytes32.zero.toList,
      1 :: List.replicate 31 0 ++ 2 :: List.replicate 31 0, [[0, 0, 0, 0, 0, 0, 0, 7, 0, 0, 0, 0]]⟩
      ⟨⟨epoch, quorum, .zero⟩, G1.generator, [⟨7, []⟩]⟩ where
  epoch := rfl
  quorum := rfl
  root := rfl
  commitment := Commitment.decode_generator
  slices := .cons rfl .nil
  uploaded := huploaded
  seated := ⟨count, hcount, hlt⟩
  assigned := hassigned
  proofs s _ := hcheck s _ _

end BlobSigner
