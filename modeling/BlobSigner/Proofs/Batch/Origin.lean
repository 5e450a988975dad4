import BlobSigner.Proofs.Request.Vouched
/-!
# Where slices come from

`Service.Takes` says on which node, and after which events, a request is taken up while a call is
worked on, be it one of the call's own or one of a call nested in it. Every write in the call's
history goes back to such a request, which has been processed to its signature before the write
(`takes_of_write`).
-/
namespace BlobSigner

variable {before : List Event} {k : BlobKey} {slices : List Slice} {stored : Bool}

/-! ## Events within a history -/

/-- The event stands in the history, and `before` is what comes before it. -/
def Occurs (history before : List Event) (e : Event) : Prop := before ++ [e] <+: history

namespace Occurs

variable {es es' : List Event} {e : Event}

theorem mem (h : Occurs es before e) : e ∈ es := h.subset (by simp)

theorem cases_append (h : Occurs (es ++ es') before e) :
    Occurs es before e ∨ ∃ before', before = es ++ before' ∧ Occurs es' before' e := by
  induction es generalizing before with
  | nil => exact Or.inr ⟨before, rfl, h⟩
  | cons x es ih =>
    cases before with
    | nil =>
      obtain ⟨rfl, -⟩ := List.cons_prefix_cons.1 h
      exact Or.inl ⟨es, rfl⟩
    | cons y before =>
      obtain ⟨rfl, htail⟩ := List.cons_prefix_cons.1 h
      rcases ih htail with hl | ⟨before', rfl, hr⟩
      · exact Or.inl (List.cons_prefix_cons.2 ⟨rfl, hl⟩)
      · exact Or.inr ⟨before', rfl, hr⟩

theorem cases_andThen {α β ε : Type} {t : Traced (Except ε α)}
    {next : α → Node → Traced (Except ε β)} (h : Occurs (t.andThen next).events before e) :
    Occurs t.events before e ∨ ∃ a before', t.value = .ok a ∧ before = t.events ++ before' ∧
      Occurs (next a t.node).events before' e := by
  cases hv : t.value with
  | error x =>
    rw [Traced.andThen_of_error hv] at h
    exact Or.inl h
  | ok a =>
    rw [Traced.andThen_of_ok hv] at h
    rcases h.cases_append with hl | ⟨before', heq, hr⟩
    · exact Or.inl hl
    · exact Or.inr ⟨a, before', rfl, heq, hr⟩

end Occurs

/-! ## What a history stores -/

/-- What an event puts into the table of slices. -/
def Event.stored? : Event → Option (BlobKey × List Slice)
  | .write k slices true => some (k, slices)
  | _ => none

/-- What a history puts into the table of slices, in order. -/
def storedBy (es : List Event) : List (BlobKey × List Slice) := es.filterMap Event.stored?

@[simp] theorem storedBy_append (es es' : List Event) :
    storedBy (es ++ es') = storedBy es ++ storedBy es' :=
  List.filterMap_append

/-- At whatever depth, these are the writes that are kept. -/
theorem kept_writes (depth : Nat) (es : List Event) : kept (writes depth es) = storedBy es := by
  induction es generalizing depth with
  | nil => rfl
  | cons e es ih =>
    cases e with
    | enter k => exact ih (depth + 1)
    | leave k => exact ih (depth - 1)
    | write k slices stored =>
      cases stored with
      | false => exact ih depth
      | true => exact congrArg _ (ih depth)
    | _ => exact ih depth

theorem Examines.stores {n n' : Node} {es : List Event} (h : Examines n es n') :
    Store.putAll (storedBy es) n.store = .ok n'.store := by
  rw [← kept_writes 0]
  exact h.ledger.kept 0

/-! ## Writes of the calls that a look-up makes -/

section

variable {env : Surroundings} {nested : Batch → Node → Traced Reply} {n : Node}

/-- What a fetch writes, its look-up writes. -/
theorem Node.write_of_fetchBy {lookUp : Node → Traced (Except LookupError UInt64)} {epoch : UInt64}
    (h : Occurs (n.fetchBy lookUp epoch).events before (.write k slices stored)) :
    n.counts.get? epoch = none ∧ ∃ before', before = .lookup epoch :: before' ∧
      Occurs (lookUp { n with lookups := n.lookups + 1 }).events before' (.write k slices stored) := by
  cases hc : n.counts.get? epoch with
  | some count =>
    rw [fetchBy_of_known hc] at h
    exact absurd h.mem List.not_mem_nil
  | none =>
    rw [events_fetchBy hc, ← List.singleton_append] at h
    rcases h.cases_append with hask | ⟨before', heq, hlookUp⟩
    · exact absurd hask.mem (by simp)
    · exact ⟨rfl, before', heq, hlookUp⟩

theorem Lookup.calls_of_write {l : Lookup}
    (h : Occurs (Node.consult nested l n).events before (.write k slices stored)) :
    ∃ es b m before', l.Calls nested n es b m ∧ before = es ++ before' ∧
      Occurs (nested b m).events before' (.write k slices stored) := by
  induction l generalizing n before with
  | answer result => exact absurd h.mem List.not_mem_nil
  | call b next ih =>
    rcases h.cases_append with hcall | ⟨rest, rfl, hnext⟩
    · rcases hcall.cases_append with hcall | ⟨_, -, hanswer⟩
      · exact ⟨[], b, n, before, ⟨next, .here⟩, rfl, hcall⟩
      · exact absurd hanswer.mem (by simp)
    · obtain ⟨es, b', m, before', ⟨next', hreaches⟩, rfl, hwrite⟩ := ih _ hnext
      exact ⟨_, b', m, before', ⟨next', .replied hreaches⟩, (List.append_assoc ..).symm, hwrite⟩
  | fetch epoch inner next ih ih' =>
    rcases h.cases_append with hfetch | ⟨rest, rfl, hnext⟩
    · obtain ⟨hc, before', rfl, hinner⟩ := Node.write_of_fetchBy hfetch
      obtain ⟨es, b, m, before'', ⟨next', hreaches⟩, rfl, hwrite⟩ := ih hinner
      exact ⟨_, b, m, before'', ⟨next', .inner hc hreaches⟩, rfl, hwrite⟩
    · obtain ⟨es, b, m, before', ⟨next', hreaches⟩, rfl, hwrite⟩ := ih' _ hnext
      exact ⟨_, b, m, before', ⟨next', .fetched hreaches⟩, (List.append_assoc ..).symm, hwrite⟩

namespace Node

theorem calls_of_fetchCount {epoch : UInt64}
    (h : Occurs (n.fetchCount env nested epoch).events before (.write k slices stored)) :
    ∃ es b m before', n.Calls env nested epoch es b m ∧ before = es ++ before' ∧
      Occurs (nested b m).events before' (.write k slices stored) := by
  obtain ⟨hc, before', rfl, hconsult⟩ := write_of_fetchBy h
  obtain ⟨es, b, m, before'', hcalls, rfl, hwrite⟩ := Lookup.calls_of_write hconsult
  exact ⟨_, b, m, before'', .asked hc hcalls, rfl, hwrite⟩

/-- Nothing is written while a request is verified, but by the calls that a look-up makes. -/
theorem calls_of_verify {pool : Pool} {d : Decoded}
    (h : Occurs (n.verify env nested pool d).events before (.write k slices stored)) :
    ∃ es b m before', n.Calls env nested d.key.epoch es b m ∧ before = es ++ before' ∧
      Occurs (nested b m).events before' (.write k slices stored) := by
  rcases h.cases_andThen with hfetch | ⟨_, _, -, -, h⟩
  · exact calls_of_fetchCount hfetch
  · rcases h.cases_andThen with hbound | ⟨_, _, -, -, h⟩
    · exact absurd hbound.mem List.not_mem_nil
    · rcases h.cases_andThen with hread | ⟨_, _, -, -, hcheck⟩
      · exact absurd hread.mem (by simp [readAssignment])
      · exact absurd hcheck.mem (by simp [checkSlices])

end Node

end

namespace Service

/-! ## Requests that are taken up -/

/-- While a batch is signed on a node, a request is taken up on the node that it finds after some
events. It is one of the batch, reached once those before it have been signed, or it belongs to a
batch that the look-up of such a request has signed. -/
inductive Takes (svc : Service) (env : Surroundings) :
    Batch → Node → List Event → Request → Node → Prop where
  | own {b : Batch} {n : Node} {earlier rest : List Request} {r : Request} {signed : List Signed} :
      n.admission.ongoing < n.admission.max → b.requests = earlier ++ r :: rest →
      (svc.processAll env (svc.batchSign env) 0 earlier n.enter).value = .ok signed →
      Takes svc env b n (.enter (n.admission.ongoing + 1) :: .log (receivedRecord b) ::
          (svc.processAll env (svc.batchSign env) 0 earlier n.enter).events) r
        (svc.processAll env (svc.batchSign env) 0 earlier n.enter).node
  | nested {b b' : Batch} {n m n' m' : Node} {es es' es'' : List Event} {r r' : Request}
      {d : Decoded} : Takes svc env b n es r m → r.Awaited svc.payloadLimit m.store d →
      m.Calls env (svc.batchSign env) d.key.epoch es' b' n' → Takes svc env b' n' es'' r' m' →
      Takes svc env b n (es ++ .readStatus d.key (m.store.readStatus d.key) :: (es' ++ es'')) r' m'

section

variable {svc : Service} {env : Surroundings} {nested : Batch → Node → Traced Reply} {n : Node}
variable {r : Request} {i : Nat} {rs : List Request}

theorem calls_of_process
    (h : Occurs (svc.process env nested r n).events before (.write k slices stored)) :
    ∃ d es b m before', r.Awaited svc.payloadLimit n.store d ∧
      n.Calls env nested d.key.epoch es b m ∧
      before = .readStatus d.key (n.store.readStatus d.key) :: (es ++ before') ∧
      Occurs (nested b m).events before' (.write k slices stored) := by
  rcases h.cases_andThen with hread | ⟨d, _, hd, rfl, h⟩
  · exact absurd hread.mem List.not_mem_nil
  · rcases h.cases_andThen with hgate | ⟨_, _, hgate, heq, h⟩
    · exact absurd hgate.mem (by simp [Node.gate])
    · rcases h.cases_andThen with hverify | ⟨_, _, -, -, hsign⟩
      · obtain ⟨es, b, m, before', hcalls, rfl, hwrite⟩ := Node.calls_of_verify hverify
        exact ⟨d, es, b, m, before', awaited_of_gate hd hgate, hcalls, heq, hwrite⟩
      · exact absurd hsign.mem List.not_mem_nil

/-- What is written while requests are processed in turn, is written while one of them is, and those
before it have been signed. -/
theorem process_of_write
    (h : Occurs (svc.processAll env nested i rs n).events before (.write k slices stored)) :
    ∃ earlier r rest signed before', rs = earlier ++ r :: rest ∧
      (svc.processAll env nested i earlier n).value = .ok signed ∧
      before = (svc.processAll env nested i earlier n).events ++ before' ∧
      Occurs (svc.process env nested r (svc.processAll env nested i earlier n).node).events before'
        (.write k slices stored) := by
  induction rs generalizing i n before with
  | nil => exact absurd h.mem List.not_mem_nil
  | cons r rs ih =>
    cases hv : (svc.process env nested r n).value with
    | error cause =>
      rw [processAll_cons_of_error hv] at h
      rcases h.cases_append with hr | ⟨_, -, hlog⟩
      · exact ⟨[], r, rs, [], before, rfl, rfl, rfl, hr⟩
      · exact absurd hlog.mem (by simp)
    | ok s =>
      rw [processAll_cons_of_ok hv] at h
      rcases h.cases_append with hr | ⟨rest, rfl, hrest⟩
      · exact ⟨[], r, rs, [], before, rfl, rfl, rfl, hr⟩
      · obtain ⟨earlier, r', rest, signed, before', rfl, hsigned, rfl, hr'⟩ := ih hrest
        refine ⟨r :: earlier, r', rest, s :: signed, before', rfl, ?_⟩
        rw [processAll_cons_of_ok hv, Traced.value_after, Traced.map, hsigned]
        exact ⟨rfl, (List.append_assoc ..).symm, hr'⟩

/-- What has been signed belongs to a request that was processed to this end. -/
theorem process_of_mem_signed {signed : List Signed} {s : Signed}
    (h : (svc.processAll env nested i rs n).value = .ok signed) (hs : s ∈ signed) :
    ∃ earlier r rest done, rs = earlier ++ r :: rest ∧
      (svc.processAll env nested i earlier n).value = .ok done ∧
      (svc.process env nested r (svc.processAll env nested i earlier n).node).value = .ok s := by
  induction rs generalizing i n signed with
  | nil =>
    cases h
    cases hs
  | cons r rs ih =>
    obtain ⟨s', later, hr, hrest, rfl⟩ := exists_of_processAll_cons h
    rcases List.mem_cons.1 hs with rfl | hs
    · exact ⟨[], r, rs, [], rfl, rfl, hr⟩
    · obtain ⟨earlier, r', rest, done, rfl, hdone, hr'⟩ := ih hrest hs
      refine ⟨r :: earlier, r', rest, s' :: done, rfl, ?_⟩
      rw [processAll_cons_of_ok hr, Traced.value_after, Traced.map, hdone]
      exact ⟨rfl, hr'⟩

theorem mem_signed_of_commit {total : Nat} {signed : List Signed}
    (h : .write k slices stored ∈ (commit i total signed n).events) :
    ∃ s ∈ signed, s.entry = (k, slices) := by
  induction signed generalizing i n with
  | nil => cases h
  | cons s rest ih =>
    rw [commit] at h
    cases hput : n.store.putSlices s.key s.slices with
    | error why =>
      simp only [hput, List.mem_cons, Event.write.injEq] at h
      rcases h with ⟨rfl, rfl, -⟩ | h
      · exact ⟨s, List.mem_cons_self, rfl⟩
      · exact absurd h (by simp)
    | ok st =>
      simp only [hput, Traced.after, List.mem_append, List.mem_singleton, Event.write.injEq] at h
      rcases h with ⟨rfl, rfl, -⟩ | h
      · exact ⟨s, List.mem_cons_self, rfl⟩
      · obtain ⟨s', hs', heq⟩ := ih h
        exact ⟨s', List.mem_cons_of_mem s hs', heq⟩

/-- A write of an admitted call is made while one of its requests is processed, or else it writes
what one of them was signed for. -/
theorem phase_of_write {b : Batch} (hroom : n.admission.ongoing < n.admission.max)
    (h : Occurs (svc.batchSign env b n).events before (.write k slices stored)) :
    ∃ es r m before', svc.Takes env b n es r m ∧ before = es ++ before' ∧
      (Occurs (svc.process env (svc.batchSign env) r m).events before' (.write k slices stored) ∨
        ∃ s, (svc.process env (svc.batchSign env) r m).value = .ok s ∧ s.entry = (k, slices) ∧
          (svc.process env (svc.batchSign env) r m).events <+: before') := by
  rw [batchSign_eq_admitted hroom] at h
  rcases h.cases_append with hwork | ⟨_, -, hleave⟩
  · have hstart : Occurs ([.enter (n.admission.ongoing + 1), .log (receivedRecord b)] ++ _) before
      (.write k slices stored) := hwork
    rcases hstart.cases_append with hstart | ⟨work, rfl, hphases⟩
    · exact absurd hstart.mem (by simp)
    · rcases hphases.cases_andThen with hexamine | ⟨signed, rest, hsigned, rfl, hwrite⟩
      · obtain ⟨earlier, r, later, done, before', hb, hdone, rfl, hr⟩ := process_of_write hexamine
        exact ⟨_, r, _, before', .own hroom hb hdone, rfl, Or.inl hr⟩
      · rcases hwrite.cases_andThen with hcommit | ⟨_, _, -, -, hlog⟩
        · obtain ⟨s, hs, hentry⟩ := mem_signed_of_commit hcommit.mem
          obtain ⟨earlier, r, later, done, hb, hdone, hr⟩ := process_of_mem_signed hsigned hs
          have hprocess := prefix_processAll_of_signed r later hdone
          rw [← hb] at hprocess
          obtain ⟨gap, hgap⟩ := hprocess.trans (List.prefix_append _ rest)
          refine ⟨_, r, _, (svc.process env (svc.batchSign env) r _).events ++ gap,
            .own hroom hb hdone, ?_, Or.inr ⟨s, hr, hentry, List.prefix_append ..⟩⟩
          rw [← hgap]
          simp only [List.cons_append, List.nil_append, List.append_assoc]
        · exact absurd hlog.mem (by simp)
  · exact absurd hleave.mem (by simp)

/-- **Every write goes back to a request that was taken up and signed before it.** -/
theorem takes_of_write {b : Batch}
    (h : Occurs (svc.batchSign env b n).events before (.write k slices stored)) :
    ∃ es r m s, svc.Takes env b n es r m ∧
      (svc.process env (svc.batchSign env) r m).value = .ok s ∧ s.entry = (k, slices) ∧
      es ++ (svc.process env (svc.batchSign env) r m).events <+: before := by
  -- by induction on what comes before the write: it is shorter in the history of a nested call
  generalize hlength : before.length = length
  induction length using Nat.strong_induction_on generalizing b n before with
  | _ length ih =>
    by_cases hroom : n.admission.ongoing < n.admission.max
    · obtain ⟨es, r, m, rest, htakes, rfl, hwrite | ⟨s, hs, hentry, hprefix⟩⟩ :=
        phase_of_write hroom h
      · obtain ⟨d, es', b', n', before', hawaited, hcalls, rfl, hnested⟩ := calls_of_process hwrite
        have hshorter : before'.length < length := by
          simp only [List.length_append, List.length_cons] at hlength
          omega
        obtain ⟨es'', r', m', s, htakes', hs, hentry, hprefix⟩ := ih _ hshorter hnested rfl
        refine ⟨_, r', m', s, .nested htakes hawaited hcalls htakes', hs, hentry, ?_⟩
        simp only [List.append_assoc, List.cons_append]
        refine (List.prefix_append_right_inj _).2 (List.cons_prefix_cons.2 ⟨rfl, ?_⟩)
        exact (List.prefix_append_right_inj _).2 hprefix
      · exact ⟨es, r, m, s, htakes, hs, hentry, (List.prefix_append_right_inj _).2 hprefix⟩
    · rw [batchSign_of_full hroom] at h
      exact absurd h.mem (by simp [shed])

/-- A request that is taken up is processed right then. -/
theorem Takes.prefix_batchSign {b : Batch} {es : List Event} {m : Node}
    (h : svc.Takes env b n es r m) :
    es ++ (svc.process env (svc.batchSign env) r m).events <+: (svc.batchSign env b n).events := by
  induction h with
  | own hroom hb hsigned => exact prefix_batchSign_of_signed hroom hb hsigned
  | nested _ hawaited hcalls _ ih ih' =>
    refine List.IsPrefix.trans ?_ ih
    rw [List.append_assoc]
    refine (List.prefix_append_right_inj _).2 (List.IsPrefix.trans ?_
      (prefix_process_of_calls hawaited hcalls))
    rw [List.cons_append, List.append_assoc]
    exact List.cons_prefix_cons.2 ⟨rfl, (List.prefix_append_right_inj _).2 ih'⟩

/-- The store that a request finds is the one from before the call with all writes since. -/
theorem Takes.stores {b : Batch} {es : List Event} {m : Node} (h : svc.Takes env b n es r m) :
    Store.putAll (storedBy es) n.store = .ok m.store := by
  induction h with
  | own _ _ _ => exact (examines_processAll svc env (examines_batchSign svc env) _ _ _).stores
  | nested _ _ hcalls _ ih ih' =>
    have hbetween := (hcalls.examines (examines_batchSign svc env)).stores
    have hafter := Store.putAll_append hbetween ih'
    rw [← storedBy_append] at hafter
    rw [storedBy_append]
    exact Store.putAll_append ih hafter

end

end Service

end BlobSigner
