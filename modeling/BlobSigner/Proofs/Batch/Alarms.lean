import BlobSigner.Proofs.Batch.Verdict
/-!
# What a call leaves in the log

The work on requests writes nothing, and a failure leaves the warnings of its cause and one record of
the signer (`Failure.trail`). So when look-ups have no batch signed, the records of a call are told by
how it ends (`recordsOf_of_full`, `recordsOf_of_rejected`, `recordsOf_of_unwritten`,
`recordsOf_of_written`), and a call that is not answered well has its one report among them:
`batchSign_reported`.
-/
namespace BlobSigner

variable {es : List Event} {n : Node} {threshold : LogLevel}

/-! ## Records of a history -/

def Event.record? : Event → Option LogRecord
  | .log record => some record
  | _ => none

/-- The records of a history, in order, whatever the level in force. -/
def recordsOf (es : List Event) : List LogRecord := es.filterMap Event.record?

/-- The records that are kept at a level. -/
def keptAt (threshold : LogLevel) (records : List LogRecord) : List LogRecord :=
  records.filter (LogRecord.passes threshold)

theorem recordsOf_append (es es' : List Event) : recordsOf (es ++ es') = recordsOf es ++ recordsOf es' :=
  List.filterMap_append

@[simp] theorem recordsOf_nil : recordsOf [] = [] := rfl

@[simp] theorem recordsOf_log (record : LogRecord) (es : List Event) :
    recordsOf (.log record :: es) = record :: recordsOf es := rfl

@[simp] theorem recordsOf_enter (k : Nat) (es : List Event) :
    recordsOf (.enter k :: es) = recordsOf es := rfl

@[simp] theorem recordsOf_leave (k : Nat) (es : List Event) :
    recordsOf (.leave k :: es) = recordsOf es := rfl

theorem recordsOf_map_log (records : List LogRecord) : recordsOf (records.map .log) = records := by
  rw [recordsOf, List.filterMap_map]
  exact List.filterMap_some

theorem recordsOf_checkSlices (calls : List SliceCall) : recordsOf (calls.map .checkSlice) = [] := by
  rw [recordsOf, List.filterMap_map]
  exact List.filterMap_eq_nil_iff.2 fun _ _ => rfl

/-- A level drops only what a higher one drops as well. -/
theorem keptAt_keptAt {high : LogLevel} (h : threshold.rank ≤ high.rank) (records : List LogRecord) :
    keptAt high (keptAt threshold records) = keptAt high records := by
  unfold keptAt
  rw [List.filter_filter]
  refine List.filter_congr fun record _ => ?_
  simp only [LogRecord.passes, ← Bool.decide_and, decide_eq_decide]
  omega

/-! ## Work that writes nothing -/

section

variable {α β ε : Type}

theorem recordsOf_andThen {t : Traced (Except ε α)} {next : α → Node → Traced (Except ε β)}
    (h : recordsOf t.events = [])
    (hnext : ∀ a, t.value = .ok a → recordsOf (next a t.node).events = []) :
    recordsOf (t.andThen next).events = [] := by
  cases ht : t.value with
  | error e =>
    rw [Traced.andThen_of_error ht]
    exact h
  | ok a =>
    rw [Traced.andThen_of_ok ht, Traced.after, recordsOf_append, h, hnext a ht, List.append_nil]

end

section

variable {reply : Nat → UInt64 → Except LookupError UInt64} {env : Surroundings}
  {nested : Batch → Node → Traced Reply} {svc : Service}

theorem Node.recordsOf_fetchCount (hp : env.Answers reply) (n : Node) (epoch : UInt64) :
    recordsOf (n.fetchCount env nested epoch).events = [] := by
  unfold fetchCount fetchBy
  cases n.counts.get? epoch with
  | some count => rfl
  | none =>
    rw [hp n.lookups epoch]
    cases reply n.lookups epoch <;> rfl

theorem Node.recordsOf_verify (hp : env.Answers reply) (pool : Pool) (d : Decoded) (n : Node) :
    recordsOf (n.verify env nested pool d).events = [] := by
  refine recordsOf_andThen (recordsOf_fetchCount hp n d.key.epoch) fun count _ => ?_
  refine recordsOf_andThen rfl fun _ _ => ?_
  refine recordsOf_andThen rfl fun assigned _ => ?_
  exact recordsOf_checkSlices _

theorem Service.recordsOf_process (hp : env.Answers reply) (r : Request) (n : Node) :
    recordsOf (svc.process env nested r n).events = [] := by
  refine recordsOf_andThen rfl fun d _ => ?_
  refine recordsOf_andThen rfl fun _ _ => ?_
  refine recordsOf_andThen (Node.recordsOf_verify hp svc.pool d _) fun _ _ => ?_
  rfl

/-! ## What a failure leaves -/

/-- The warnings of its cause, and what the signer says. -/
def Failure.trail : Failure → List LogRecord
  | .rejected i cause => cause.warnings ++ (Failure.rejected i cause).records
  | f => f.records

/-- What a phase of a call leaves. -/
def trail {α : Type} : Except Failure α → List LogRecord
  | .ok _ => []
  | .error f => f.trail

theorem trail_map {α β : Type} (f : α → β) (v : Except Failure α) : trail (v.map f) = trail v := by
  cases v <;> rfl

namespace Service

theorem recordsOf_processAll (hp : env.Answers reply) (i : Nat) (rs : List Request) (n : Node) :
    recordsOf (svc.processAll env nested i rs n).events =
      trail (svc.processAll env nested i rs n).value := by
  induction rs generalizing i n with
  | nil => rfl
  | cons r rs ih =>
    have hnone : recordsOf (svc.process env nested r n).events = [] := recordsOf_process hp r n
    cases hr : (svc.process env nested r n).value with
    | error cause =>
      rw [processAll_cons_of_error hr, recordsOf_append, hnone, recordsOf_map_log]
      rfl
    | ok s =>
      rw [processAll_cons_of_ok hr, Traced.value_after, Traced.after, recordsOf_append, hnone,
        Traced.events_map, ih, Traced.map, trail_map, List.nil_append]

theorem recordsOf_commit (i total : Nat) (signed : List Signed) (n : Node) :
    recordsOf (commit i total signed n).events = trail (commit i total signed n).value := by
  induction signed generalizing i n with
  | nil => rfl
  | cons s rest ih =>
    rw [commit]
    cases n.store.putSlices s.key s.slices with
    | error why => exact recordsOf_map_log _
    | ok store => exact ih (i + 1) { n with store := store }

/-! ## Records of a call -/

variable {b : Batch}

theorem recordsOf_examine (hp : env.Answers reply) (b : Batch) (n : Node) :
    recordsOf (svc.examine env b n).events = trail (svc.examine env b n).value :=
  recordsOf_processAll hp ..

theorem recordsOf_of_full (h : ¬ n.admission.ongoing < n.admission.max) :
    recordsOf (svc.batchSign env b n).events = [n.admission.fullWarning] := by
  rw [batchSign_of_full h]
  rfl

/-- The first record of an admitted call says that it was received. -/
theorem recordsOf_call (k j : Nat) (record : LogRecord) (work : List Event) :
    recordsOf (.enter k :: .log record :: work ++ [.leave j]) = record :: recordsOf work := by
  simp only [List.cons_append, recordsOf_enter, recordsOf_log, recordsOf_append, recordsOf_leave,
    recordsOf_nil, List.append_nil]

theorem recordsOf_of_rejected (hp : env.Answers reply) (h : n.admission.ongoing < n.admission.max)
    {f : Failure} (hf : (svc.examine env b n).value = .error f) :
    recordsOf (svc.batchSign env b n).events = receivedRecord b :: f.trail := by
  rw [batchSign_of_rejected h hf, recordsOf_call, recordsOf_examine hp, hf]
  rfl

theorem recordsOf_of_unwritten (hp : env.Answers reply) (h : n.admission.ongoing < n.admission.max)
    {signed : List Signed} (hs : (svc.examine env b n).value = .ok signed) {f : Failure}
    (hf : (commit 0 signed.length signed (svc.examine env b n).node).value = .error f) :
    recordsOf (svc.batchSign env b n).events = receivedRecord b :: f.trail := by
  rw [(batchSign_of_signed h hs).1 f hf, recordsOf_call, recordsOf_append, recordsOf_examine hp, hs,
    recordsOf_commit, hf]
  rfl

theorem recordsOf_of_written (hp : env.Answers reply) (h : n.admission.ongoing < n.admission.max)
    {signed : List Signed} (hs : (svc.examine env b n).value = .ok signed)
    (hw : (commit 0 signed.length signed (svc.examine env b n).node).value = .ok ()) :
    recordsOf (svc.batchSign env b n).events =
      [receivedRecord b, signedRecord b (signed.map Signed.signature)] := by
  rw [(batchSign_of_signed h hs).2 hw, recordsOf_call, recordsOf_append, recordsOf_append,
    recordsOf_examine hp, hs, recordsOf_commit, hw]
  rfl

end Service

/-! ## Reports -/

/-- The components that report how calls end. -/
def LogRecord.fromService (r : LogRecord) : Bool := r.component = .signer ∨ r.component = .admission

theorem Rejection.warning_exact (cause : Rejection) :
    ∀ record ∈ cause.warnings, record.level = .warn ∧ record.fromService = false := by
  cases cause with
  | commitment e => cases e <;> simp [warnings, Commitment.Error.warnings, Commitment.Error.check?,
      LogRecord.fromService]
  | _ => simp [warnings, sliceWarning, LogRecord.fromService]

theorem Failure.record_exact (f : Failure) :
    ∀ record ∈ f.records, record.passes .warn ∧ record.fromService := by
  cases f with
  | overloaded => exact List.forall_mem_nil _
  | rejected i cause => cases cause <;> exact List.forall_mem_singleton.2 ⟨rfl, rfl⟩
  | unwritten i total why => exact List.forall_mem_singleton.2 ⟨rfl, rfl⟩

/-- All that a failure leaves is kept at this level. -/
theorem Failure.keptAt_trail (f : Failure) : keptAt .warn f.trail = f.trail := by
  refine List.filter_eq_self.2 fun record hmem => ?_
  cases f with
  | rejected i cause =>
    rcases List.mem_append.1 hmem with hwarning | hrecord
    · simp only [LogRecord.passes, (cause.warning_exact record hwarning).1, le_refl, decide_true]
    · exact (record_exact _ record hrecord).1
  | overloaded => cases hmem
  | unwritten i total why => exact (record_exact (.unwritten i total why) record hmem).1

/-- The warnings of the cause are of other components. -/
theorem Failure.filter_trail (f : Failure) : f.trail.filter LogRecord.fromService = f.records := by
  have hown : f.records.filter LogRecord.fromService = f.records :=
    List.filter_eq_self.2 fun record hmem => (f.record_exact record hmem).2
  cases f with
  | rejected i cause =>
    have hothers : cause.warnings.filter LogRecord.fromService = [] := by
      refine List.filter_eq_nil_iff.2 fun record hmem => ?_
      rw [(cause.warning_exact record hmem).2]
      decide
    rw [trail, List.filter_append, hothers, hown, List.nil_append]
  | overloaded => exact hown
  | unwritten i total why => exact hown

/-- Of a cause that is a check, the signer gives the answer and the kind. -/
theorem Failure.records_of_fails {limit : UInt64} {check : SliceCheck} {store : Store}
    {counts : UInt64 → Except LookupError UInt64} {r : Request} {cause : Rejection}
    (h : r.Fails limit check store counts cause) (i : Nat) :
    (Failure.rejected i cause).records =
      [⟨.signer, .warn, (Failure.rejected i cause).error.message ++ s!" ({cause.kind.name})"⟩] := by
  cases h with
  | position _ _ _ _ _ hfault =>
    unfold SliceCheck.fault? at hfault
    split at hfault
    · cases hfault
      rfl
    · split at hfault <;> cases hfault <;> rfl
  | _ => rfl

namespace Service

/-- The one record that says how a call has ended that was not answered well. -/
inductive Reports (svc : Service) (env : Surroundings)
    (reply : Nat → UInt64 → Except LookupError UInt64) (b : Batch) (n : Node) :
    Status → LogRecord → Prop where
  | shed : ¬ n.admission.ongoing < n.admission.max →
      Reports svc env reply b n Admission.overloaded.status n.admission.fullWarning
  | rejected {before after : List Request} {r : Request} {cause : Rejection} {status : Status} :
      n.admission.ongoing < n.admission.max → b.requests = before ++ r :: after →
      svc.AcceptsAll env reply n before →
      svc.Refuses env reply (before.foldl (Node.served reply) n) r cause →
      status = ⟨cause.kind.statusCode, s!"request {before.length}: " ++ cause.message⟩ →
      Reports svc env reply b n status
        ⟨.signer, .warn, status.message ++ s!" ({cause.kind.name})"⟩
  | unwritten {done rest : List Signed} {s : Signed} {st : Store} {why : String} :
      n.admission.ongoing < n.admission.max → svc.AcceptsAll env reply n b.requests →
      List.Forall₂ (Signs svc) b.requests (done ++ s :: rest) →
      Store.putAll (done.map Signed.entry) n.store = .ok st →
      st.putSlices s.key s.slices = .error why →
      Reports svc env reply b n
        ⟨.internal, s!"request {done.length}: " ++ "put slice error: " ++ why⟩
        ⟨.signer, .error, s!"request {done.length}: " ++
          s!"put slice error after {done.length} of {b.requests.length} writes: " ++ why⟩

/-- A call that fails is not answered well, and reported once. -/
def Reported (svc : Service) (env : Surroundings)
    (reply : Nat → UInt64 → Except LookupError UInt64) (b : Batch) (n : Node) : Prop :=
  let t := svc.batchSign env b n
  t.value.status.isOk = false ∧
    ∃ record, (keptAt .warn (recordsOf t.events)).filter LogRecord.fromService = [record] ∧
      svc.Reports env reply b n t.value.status record

theorem reported_of_full (h : ¬ n.admission.ongoing < n.admission.max) :
    svc.Reported env reply b n := by
  refine ⟨?_, n.admission.fullWarning, ?_, ?_⟩
  · rw [batchSign_of_full h]
    exact Reply.isOk_of_error .overloaded
  · rw [recordsOf_of_full h]
    rfl
  · rw [batchSign_of_full h]
    exact .shed h

/-- Of an admitted call that fails, the log has what the failure leaves, and that it was received. -/
theorem reported_of_failure {f : Failure} {record : LogRecord}
    (hvalue : (svc.batchSign env b n).value = .of (.error f))
    (hlog : recordsOf (svc.batchSign env b n).events = receivedRecord b :: f.trail)
    (hone : f.records = [record]) (hreport : svc.Reports env reply b n f.error.status record) :
    svc.Reported env reply b n := by
  refine ⟨?_, record, ?_, ?_⟩
  · rw [hvalue, Reply.isOk_of_error]
  · have hreceived : keptAt .warn (receivedRecord b :: f.trail) = keptAt .warn f.trail := rfl
    rw [hlog, hreceived, f.keptAt_trail, f.filter_trail, hone]
  · rw [hvalue]
    exact hreport

theorem isOk_or_reported (svc : Service) (hp : env.Answers reply) (b : Batch) (n : Node) :
    ((svc.batchSign env b n).value.status.isOk ∧
        keptAt .warn (recordsOf (svc.batchSign env b n).events) = []) ∨
      svc.Reported env reply b n := by
  by_cases hroom : n.admission.ongoing < n.admission.max
  · rcases acceptsAll_or_refuses svc env reply n b.requests with
      hall | ⟨before, r, after, cause, heq, hbefore, hr⟩
    · obtain ⟨signed, hsigned, hvalue, hstore⟩ := examine_of_accepted hp hall
      obtain ⟨hbad, hgood⟩ := batchSign_of_signed hroom hvalue
      rcases commit_or_stop signed (svc.examine env b n).node.store with
        ⟨st, hst⟩ | ⟨done, s, rest, st, why, rfl, hdone, hstop⟩
      · -- every write is made
        have hok : (commit 0 signed.length signed (svc.examine env b n).node).value = .ok () := by
          rw [commit_of_putAll hst]
        refine Or.inl ⟨?_, ?_⟩
        · rw [hgood hok]
          rfl
        · rw [recordsOf_of_written hp hroom hvalue hok]
          rfl
      · -- one write fails, and it has its request's position
        have herror : (commit 0 (done ++ s :: rest).length (done ++ s :: rest)
            (svc.examine env b n).node).value =
              .error (.unwritten done.length (done ++ s :: rest).length why) := by
          rw [commit_of_stop hdone hstop, Nat.zero_add]
        rw [hstore] at hdone
        refine Or.inr (reported_of_failure (congrArg Traced.value (hbad _ herror))
          (recordsOf_of_unwritten hp hroom hvalue herror) rfl ?_)
        rw [← hsigned.length_eq]
        exact .unwritten hroom hall hsigned hdone hstop
    · have hvalue := examine_of_refused hp heq hbefore hr
      refine Or.inr (reported_of_failure (congrArg Traced.value (batchSign_of_rejected hroom hvalue))
        (recordsOf_of_rejected hp hroom hvalue) (Failure.records_of_fails hr _) ?_)
      exact .rejected hroom heq hbefore hr rfl
  · exact Or.inr (reported_of_full hroom)

/-- **Every failure of a call is reported once.** At a level that keeps warnings, a call leaves nothing
at warn or above exactly if it is answered well. Otherwise one such record is of the service's own
components, and it says why: that there are too many calls already, or the answer with the kind of
what the first refused request fails for, or how many of the writes were made. A call that is turned
away leaves nothing of the signer, at any level. -/
theorem batchSign_reported (svc : Service) (b : Batch) (n : Node) (hp : env.Answers reply)
    (hlevel : threshold.rank ≤ LogLevel.warn.rank) :
    let t := svc.batchSign env b n
    let alarms := keptAt .warn (keptAt threshold (recordsOf t.events))
    (t.value.status.isOk ↔ alarms = []) ∧
    (¬ t.value.status.isOk → ∃ record, alarms.filter LogRecord.fromService = [record] ∧
      svc.Reports env reply b n t.value.status record) ∧
    (¬ n.admission.ongoing < n.admission.max →
      ∀ record ∈ recordsOf t.events, record.component ≠ .signer) := by
  intro t alarms
  have halarms : alarms = keptAt .warn (recordsOf t.events) := keptAt_keptAt hlevel _
  have hshed : ¬ n.admission.ongoing < n.admission.max →
      ∀ record ∈ recordsOf t.events, record.component ≠ .signer := by
    intro hfull
    rw [recordsOf_of_full hfull]
    refine List.forall_mem_singleton.2 ?_
    intro h
    cases h
  rw [halarms]
  rcases isOk_or_reported svc hp b n with ⟨hok, hnone⟩ | ⟨hbad, record, hone, hreport⟩
  · exact ⟨iff_of_true hok hnone, fun hne => absurd hok hne, hshed⟩
  · have hsome : keptAt .warn (recordsOf t.events) ≠ [] := by
      intro hnone
      rw [hnone] at hone
      cases hone
    have hnot : ¬ t.value.status.isOk := by
      rw [hbad]
      decide
    exact ⟨iff_of_false hnot hsome, fun _ => ⟨record, hone, hreport⟩, hshed⟩

/-- A commitment of no length has a warning of the codec and one of the signer, which is the report. -/
theorem batchSign_reported_commitment :
    let svc : Service := ⟨1, 64, ⟨2, by decide⟩, by decide⟩
    let env : Surroundings := ⟨fun _ _ => .answer (.ok 3), fun _ _ _ => .accepted, fun _ => []⟩
    let n := Node.init .idle
    let b : Batch := ⟨[⟨5, 2, Bytes32.zero.toList, [], []⟩], ""⟩
    let t := svc.batchSign env b n
    let alarms := keptAt .warn (keptAt .info (recordsOf t.events))
    env.Answers (fun _ _ => .ok 3) ∧ LogLevel.info.rank ≤ LogLevel.warn.rank ∧
      alarms.map LogRecord.component = [.codec, .signer] ∧ ¬ t.value.status.isOk ∧
      ∃ record, alarms.filter LogRecord.fromService = [record] ∧
        svc.Reports env (fun _ _ => .ok 3) b n t.value.status record := by
  intro svc env n b t alarms
  have hp : env.Answers fun _ _ => .ok 3 := fun _ _ => rfl
  have hlevel : LogLevel.info.rank ≤ LogLevel.warn.rank := by decide
  have hboth : alarms.map LogRecord.component = [.codec, .signer] := by rfl
  obtain ⟨hok, hreport, -⟩ := batchSign_reported svc b n hp hlevel
  have hbad : ¬ t.value.status.isOk := by
    intro h
    rw [show alarms = [] from hok.1 h] at hboth
    cases hboth
  exact ⟨hp, hlevel, hboth, hbad, hreport hbad⟩

end Service

end

end BlobSigner
