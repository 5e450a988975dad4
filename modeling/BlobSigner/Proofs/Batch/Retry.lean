import BlobSigner.Proofs.Batch.Outcome
/-!
# Having a batch signed again

A call that stops at a write has accepted its batch: the first slices of it are stored, and the node
knows the count of every epoch that it asked for. Another call of the same batch asks the chain
nothing, puts what is stored in its place once more and goes on with the rest (`batchSign_retry`).
-/
namespace BlobSigner

variable {reply reply' : Nat → UInt64 → Except LookupError UInt64} {n : Node} {b : Batch}
variable {svc : Service} {env env' : Surroundings}

/-- The node once its storage takes so many writes more; without a number, all that come. -/
def Node.allowing (n : Node) (writes : Option Nat) : Node :=
  { n with store := { n.store with outage := { n.store.outage with writesLeft := writes } } }

namespace Service

theorem acceptsAll_allowing {writes : Option Nat} {rs : List Request} :
    svc.AcceptsAll env reply (n.allowing writes) rs ↔ svc.AcceptsAll env reply n rs := by
  have hstatus : (n.allowing writes).store.readStatus = n.store.readStatus := rfl
  have hassigned : (n.allowing writes).store.readAssignment = n.store.readAssignment := rfl
  exact acceptsAll_withStore hstatus hassigned

/-- Once a call has ended that accepted its batch, all that the batch has to be checked for is known. -/
theorem Concludes.known {signed : List Signed} (h : Concludes svc env reply b n signed)
    (hall : svc.AcceptsAll env reply n b.requests) (writes : Option Nat) :
    ∀ r ∈ b.requests, svc.Known env.check ((svc.batchSign env b n).node.allowing writes) r := by
  obtain ⟨done, rest, st, -, hst, hnode⟩ := h.exists_node
  obtain ⟨hstatus, hassigned⟩ := Store.reads_of_putAll hst
  rw [hnode]
  refine known_of_accepted hall rfl ?_ ?_
  · rw [← hstatus]
    rfl
  · rw [← hassigned]
    rfl

/-- Writing the batch over what the call has written of it makes the table that writing it at once
makes. -/
theorem Concludes.slices_again {signed : List Signed} {writes : Option Nat} {st : Store}
    (h : Concludes svc env reply b n signed)
    (hst : Store.putAll (signed.map Signed.entry)
      ((svc.batchSign env b n).node.allowing writes).store = .ok st) :
    st.slices = n.store.slices.insertAll (signed.map Signed.entry) := by
  obtain ⟨done, rest, st', rfl, hst', hnode⟩ := h.exists_node
  have hpart : ((svc.batchSign env b n).node.allowing writes).store.slices =
      n.store.slices.insertAll (done.map Signed.entry) := by
    rw [hnode]
    exact (Store.tables_of_putAll hst').2.2
  rw [(Store.tables_of_putAll hst).2.2, hpart, List.map_append, Table.insertAll_replay]

/-- A call whose requests are known asks the chain nothing. -/
theorem lookUps_of_known {signed : List Signed} {st : Store} (hp : env.Answers reply)
    (h : n.admission.ongoing < n.admission.max) (hknown : ∀ r ∈ b.requests, svc.Known env.check n r)
    (hc : svc.Completes env reply b.requests n signed st) :
    lookUps (svc.batchSign env b n).events = [] ∧
      (svc.batchSign env b n).node.lookups = n.lookups := by
  obtain ⟨-, hserved⟩ : svc.AcceptsAll env reply n b.requests ∧ _ := acceptsAll_of_known hknown
  have hsame : (svc.batchSign env b n).node.lookups = n.lookups := by
    rw [(hc.result hp h).2, hserved]
  have hcount := (examines_batchSign svc env b n).lookups_eq
  refine ⟨?_, hsame⟩
  rw [← List.length_eq_zero_iff]
  omega

/-- **A call that got to its writes can be made again.** Whether it was answered well or stopped at a
write, and whatever the chain says by now: once the storage takes writes, another call of the same
batch is answered with the signatures of the batch and makes no look-up. The table of slices is then
what one call would have made of it that had not been stopped. -/
theorem batchSign_retry {writes : Option Nat} (hp : env.Answers reply) (hp' : env'.Answers reply')
    (hcheck : env'.check = env.check)
    (hwrites : ∀ left, writes = some left → b.requests.length ≤ left) :
    let t := svc.batchSign env b n
    let single := svc.batchSign env b (n.allowing writes)
    let again := svc.batchSign env' b (t.node.allowing writes)
    (t.value.status.isOk ∨ ∃ k slices, .write k slices false ∈ t.events) →
      single.value.status.isOk ∧ again.value.status.isOk ∧ again.value = single.value ∧
      (t.value.status.isOk → again.value = t.value) ∧
      List.Forall₂ (fun r signature => ∃ d H S,
        r.Decodes svc.payloadLimit d ∧ d.key.hashPoint d.commitment = .ok H ∧
          H.tryMul svc.key = .ok S ∧ S.encode = .ok signature) b.requests again.value.signatures ∧
      lookUps again.events = [] ∧ again.node.lookups = t.node.lookups ∧
      again.node.store.slices = single.node.store.slices := by
  intro t single again hpassed
  have hwritten : t.value.status.isOk ∨ ∃ k slices stored, .write k slices stored ∈ t.events :=
    hpassed.imp_right fun ⟨k, slices, hwrite⟩ => ⟨k, slices, false, hwrite⟩
  obtain ⟨hfree, hall⟩ := acceptsAll_of_written hp hwritten
  obtain ⟨signed, hsigned, hends⟩ := outcome_of_accepted hp hfree hall
  -- without the failure: all is accepted as before, and written
  obtain ⟨st₁, hsingle⟩ := completes_of_room (n := n.allowing writes) (acceptsAll_allowing.2 hall)
    hsigned hwrites
  obtain ⟨hvalue₁, hnode₁⟩ := hsingle.result hp hfree
  -- again: all that has to be known is known
  have hknown : ∀ r ∈ b.requests, svc.Known env'.check (t.node.allowing writes) r :=
    hcheck ▸ hends.known hall writes
  have hfree' : (t.node.allowing writes).admission.ongoing <
      (t.node.allowing writes).admission.max := by
    have hsame : (t.node.allowing writes).admission = n.admission :=
      (examines_batchSign svc env b n).admission_eq
    rwa [hsame]
  obtain ⟨st₂, hagain⟩ := completes_of_room (n := t.node.allowing writes)
    (acceptsAll_of_known hknown).1 hsigned hwrites
  obtain ⟨hvalue₂, hnode₂⟩ := hagain.result hp' hfree'
  obtain ⟨hnone, hlookups⟩ := lookUps_of_known hp' hfree' hknown hagain
  refine ⟨hsingle.isOk hp hfree, hagain.isOk hp' hfree', hvalue₂.trans hvalue₁.symm,
    fun hok => hvalue₂.trans (hends.value_of_isOk hok).symm, ?_, hnone, hlookups, ?_⟩
  · rw [show again.value = _ from hvalue₂]
    exact signatures_of_signs hsigned
  · calc again.node.store.slices
        = st₂.slices := by rw [show again.node = _ from hnode₂]
      _ = n.store.slices.insertAll (signed.map Signed.entry) := hends.slices_again hagain.stores
      _ = st₁.slices := (Store.tables_of_putAll hsingle.stores).2.2.symm
      _ = single.node.store.slices := by rw [show single.node = _ from hnode₁]

/-- Two requests, of which the second was not written, while the chain is down. -/
theorem batchSign_retry_second :
    let svc : Service := ⟨1, 64, ⟨2, by decide⟩, by decide⟩
    let env : Surroundings := ⟨fun _ _ => .answer (.ok 3), fun _ _ _ => .accepted, fun _ => []⟩
    let down : Surroundings := { env with lookup := fun _ _ => .answer (.error (.chain "down")) }
    let k : UInt64 → BlobKey := fun quorum => ⟨5, quorum, .zero⟩
    let r : UInt64 → Request := fun quorum => ⟨5, quorum, Bytes32.zero.toList,
      1 :: List.replicate 31 0 ++ 2 :: List.replicate 31 0, [[0, 0, 0, 0, 0, 0, 0, 7, 0, 0, 0, 0]]⟩
    let store := ((((Store.empty.setStatus (k 1) .uploaded).setAssignment (k 1).quorumKey [7]).setStatus
      (k 2) .uploaded).setAssignment (k 2).quorumKey [7]).setOutage false false (some 1) none
    let n : Node := { Node.init .idle with store := store }
    let b : Batch := ⟨[r 1, r 2], ""⟩
    env.Answers (fun _ _ => .ok 3) ∧ down.Answers (fun _ _ => .error (.chain "down")) ∧
      (∀ left, none = some left → b.requests.length ≤ left) ∧
      (∃ k slices, .write k slices false ∈ (svc.batchSign env b n).events) ∧
      (svc.batchSign down b ((svc.batchSign env b n).node.allowing none)).value.status.isOk ∧
      lookUps (svc.batchSign down b ((svc.batchSign env b n).node.allowing none)).events = [] := by
  intro svc env down k r store n b
  have hp : env.Answers fun _ _ => .ok 3 := fun _ _ => rfl
  have hp' : down.Answers fun _ _ => .error (.chain "down") := fun _ _ => rfl
  have hwrites : ∀ left, none = some left → b.requests.length ≤ left := nofun
  have hcheck : ∀ s C root, env.check s C root = .accepted := fun _ _ _ => rfl
  have hall : svc.AcceptsAll env (fun _ _ => .ok 3) n b.requests :=
    acceptsAll_iff_forall.2 (List.forall_mem_cons.2
      ⟨⟨_, Request.passes_of_generator rfl rfl (by decide) rfl hcheck⟩,
        List.forall_mem_singleton.2 ⟨_, Request.passes_of_generator rfl rfl (by decide) rfl hcheck⟩⟩)
  obtain ⟨signed, hsigned, hends⟩ := outcome_of_accepted hp (by decide) hall
  have hstopped : ∃ k slices, .write k slices false ∈ (svc.batchSign env b n).events := by
    cases hends with
    | written hst _ _ =>
      have hroom := (Store.putAll_eq_ok_iff.1 hst).1 1 rfl
      rw [List.length_map, ← hsigned.length_eq] at hroom
      exact absurd hroom (by decide)
    | stopped _ _ _ _ _ hwrite => exact ⟨_, _, hwrite⟩
  obtain ⟨-, hok, -, -, -, hnone, -, -⟩ := batchSign_retry hp hp' rfl hwrites (Or.inr hstopped)
  exact ⟨hp, hp', hwrites, hstopped, hok, hnone⟩

end Service

end BlobSigner
