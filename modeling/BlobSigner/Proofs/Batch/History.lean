import BlobSigner.Proofs.Batch.Phases
/-!
# What a call does, step by step

`Examines` says what can happen to a node, and with what events, while a call examines its batch:
one rule for each read, look-up and check, and one for a whole call that a look-up makes. `Writes`
says the same of the writes at the end. All calls keep to these rules, whatever the surroundings, and
to those of any other relation that allows as much (`Rules.batchSignWithin`), so what the rules
preserve holds of every call.
-/
namespace BlobSigner

/-- Writes in turn up to the first that fails, and what the log says in the end. -/
inductive Writes : Node → List Event → Node → Prop where
  | done {n : Node} (records : List LogRecord) : Writes n (records.map .log) n
  | stored {n n' : Node} {k : BlobKey} {slices : List Slice} {st : Store} {w : List Event} :
      n.store.putSlices k slices = .ok st → Writes { n with store := st } w n' →
      Writes n (.write k slices true :: w) n'
  | failed {n : Node} {k : BlobKey} {slices : List Slice} {why : String} (records : List LogRecord) :
      n.store.putSlices k slices = .error why →
      Writes n (.write k slices false :: records.map .log) n

/-- What happens before the writes of a call. -/
inductive Examines : Node → List Event → Node → Prop where
  | nothing {n : Node} : Examines n [] n
  | next {n m n' : Node} {e e' : List Event} :
      Examines n e m → Examines m e' n' → Examines n (e ++ e') n'
  | log {n : Node} (record : LogRecord) : Examines n [.log record] n
  | readStatus {n : Node} (k : BlobKey) : Examines n [.readStatus k (n.store.readStatus k)] n
  | readAssignment {n : Node} (k : QuorumKey) :
      Examines n [.readAssignment k (n.store.readAssignment k)] n
  | ask {n n' : Node} {epoch : UInt64} {e : List Event} : n.counts.get? epoch = none →
      Examines { n with lookups := n.lookups + 1 } e n' → Examines n (.lookup epoch :: e) n'
  | learn {n n' : Node} {epoch : UInt64} {e : List Event} (count : UInt64) :
      n.counts.get? epoch = none → Examines { n with lookups := n.lookups + 1 } e n' →
      Examines n (.lookup epoch :: e) (n'.putCount epoch count)
  | checkSlices {n : Node} (calls : List SliceCall) :
      Examines n (calls.map .checkSlice) { n with rounds := n.rounds + 1 }
  | call {n m n' : Node} {e w : List Event} : n.admission.ongoing < n.admission.max →
      Examines n.enter e m → Writes m w n' →
      Examines n (.enter (n.admission.ongoing + 1) :: (e ++ w) ++ [.leave n'.release.admission.ongoing])
        n'.release
  | answered {n : Node} (reply : Reply) : Examines n [.answered reply n.admission.ongoing] n

/-! ## Rules that follow -/

theorem Writes.append_log {n n' : Node} {w : List Event} (h : Writes n w n') (record : LogRecord) :
    Writes n (w ++ [.log record]) n' := by
  induction h with
  | @done n records =>
    have h : Writes n ((records ++ [record]).map .log) n := .done _
    rwa [List.map_append] at h
  | stored hput _ ih => exact .stored hput ih
  | failed records hput =>
    have h := Writes.failed (records ++ [record]) hput
    rwa [List.map_append] at h

theorem Writes.andThen_log {α β ε : Type} {n : Node} {t : Traced (Except ε α)} {value : β}
    {record : LogRecord} (h : Writes n t.events t.node) :
    Writes n (t.andThen fun _ m => ⟨.ok value, m, [.log record]⟩).events
      (t.andThen fun _ m => ⟨.ok value, m, [.log record]⟩).node := by
  cases hv : t.value with
  | error e =>
    rw [Traced.andThen_of_error hv]
    exact h
  | ok a =>
    rw [Traced.andThen_of_ok hv]
    exact h.append_log record

/-! ## What the rules allow -/

/-- A look-up for the count of `own` can come to tell this count of this epoch, whatever it is replied:
as its own answer, or as that of a look-up within it. -/
inductive Lookup.Tells : Lookup → UInt64 → UInt64 → UInt64 → Prop where
  | answer {own count : UInt64} : Tells (.answer (.ok count)) own own count
  | call {b : Batch} {next : Reply → Lookup} {own epoch count : UInt64} (reply : Reply) :
      Tells (next reply) own epoch count → Tells (.call b next) own epoch count
  | inner {inner : Lookup} {next : Except LookupError UInt64 → Lookup} {own own' epoch count : UInt64} :
      Tells inner own' epoch count → Tells (.fetch own' inner next) own epoch count
  | next {inner : Lookup} {next : Except LookupError UInt64 → Lookup} {own own' epoch count : UInt64}
      (result : Except LookupError UInt64) :
      Tells (next result) own epoch count → Tells (.fetch own' inner next) own epoch count

/-- Some look-up can come to tell this count of the epoch. -/
def Surroundings.Tells (env : Surroundings) (epoch count : UInt64) : Prop :=
  ∃ number own, (env.lookup number own).Tells own epoch count

/-- A relation that allows all that can happen before the writes of a call, where a look-up learns
no more than the chain tells. -/
structure Rules (tells : UInt64 → UInt64 → Prop) (R : Node → List Event → Node → Prop) : Prop where
  nothing {n : Node} : R n [] n
  next {n m n' : Node} {e e' : List Event} : R n e m → R m e' n' → R n (e ++ e') n'
  log {n : Node} (record : LogRecord) : R n [.log record] n
  readStatus {n : Node} (k : BlobKey) : R n [.readStatus k (n.store.readStatus k)] n
  readAssignment {n : Node} (k : QuorumKey) : R n [.readAssignment k (n.store.readAssignment k)] n
  ask {n n' : Node} {epoch : UInt64} {e : List Event} : n.counts.get? epoch = none →
    R { n with lookups := n.lookups + 1 } e n' → R n (.lookup epoch :: e) n'
  learn {n n' : Node} {epoch count : UInt64} {e : List Event} : tells epoch count →
    n.counts.get? epoch = none → R { n with lookups := n.lookups + 1 } e n' →
    R n (.lookup epoch :: e) (n'.putCount epoch count)
  checkSlices {n : Node} (calls : List SliceCall) :
    R n (calls.map .checkSlice) { n with rounds := n.rounds + 1 }
  call {n m n' : Node} {e w : List Event} : n.admission.ongoing < n.admission.max →
    R n.enter e m → Writes m w n' →
    R n (.enter (n.admission.ongoing + 1) :: (e ++ w) ++ [.leave n'.release.admission.ongoing])
      n'.release
  answered {n : Node} (reply : Reply) : R n [.answered reply n.admission.ongoing] n

theorem rules_examines (tells : UInt64 → UInt64 → Prop) : Rules tells Examines where
  nothing := .nothing
  next := .next
  log := .log
  readStatus := .readStatus
  readAssignment := .readAssignment
  ask := .ask
  learn _ := .learn _
  checkSlices := .checkSlices
  call := .call
  answered := .answered

/-- `Examines` is the least such relation. -/
theorem Rules.of_examines {R : Node → List Event → Node → Prop} (hr : Rules (fun _ _ => True) R)
    {n n' : Node} {es : List Event} (h : Examines n es n') : R n es n' := by
  induction h with
  | nothing => exact hr.nothing
  | next _ _ ih ih' => exact hr.next ih ih'
  | log record => exact hr.log record
  | readStatus k => exact hr.readStatus k
  | readAssignment k => exact hr.readAssignment k
  | ask hc _ ih => exact hr.ask hc ih
  | learn count hc _ ih => exact hr.learn trivial hc ih
  | checkSlices calls => exact hr.checkSlices calls
  | call h _ hw ih => exact hr.call h ih hw
  | answered reply => exact hr.answered reply

/-! ## Calls keep to the rules -/

theorem Node.tells_of_consult {nested : Batch → Node → Traced Reply} {l : Lookup} {n : Node}
    {count : UInt64} (h : (consult nested l n).value = .ok count) (epoch : UInt64) :
    l.Tells epoch epoch count := by
  induction l generalizing n with
  | answer result =>
    cases h
    exact .answer
  | call b next ih => exact .call _ (ih _ h)
  | fetch epoch' inner next _ ih => exact .next _ (ih _ h)

namespace Node

variable {lookUp : Node → Traced (Except LookupError UInt64)} {epoch : UInt64} {n : Node}

theorem fetchBy_of_known {count : UInt64} (hc : n.counts.get? epoch = some count) :
    n.fetchBy lookUp epoch = .of (.ok count) n := by
  unfold fetchBy
  rw [hc]

theorem fetchBy_of_failed {e : LookupError} (hc : n.counts.get? epoch = none)
    (hv : (lookUp { n with lookups := n.lookups + 1 }).value = .error e) :
    n.fetchBy lookUp epoch = ⟨.error e, (lookUp { n with lookups := n.lookups + 1 }).node,
      .lookup epoch :: (lookUp { n with lookups := n.lookups + 1 }).events⟩ := by
  unfold fetchBy
  simp only [hc, Traced.after, hv, List.singleton_append]

theorem fetchBy_of_learnt {count : UInt64} (hc : n.counts.get? epoch = none)
    (hv : (lookUp { n with lookups := n.lookups + 1 }).value = .ok count) :
    n.fetchBy lookUp epoch =
      ⟨.ok count, (lookUp { n with lookups := n.lookups + 1 }).node.putCount epoch count,
        .lookup epoch :: (lookUp { n with lookups := n.lookups + 1 }).events⟩ := by
  unfold fetchBy
  simp only [hc, Traced.after, hv, List.singleton_append]

/-- Whatever the look-up comes to, its events are those of the fetch. -/
theorem events_fetchBy (hc : n.counts.get? epoch = none) :
    (n.fetchBy lookUp epoch).events =
      .lookup epoch :: (lookUp { n with lookups := n.lookups + 1 }).events := by
  cases hv : (lookUp { n with lookups := n.lookups + 1 }).value with
  | error e => rw [fetchBy_of_failed hc hv]
  | ok count => rw [fetchBy_of_learnt hc hv]

end Node

namespace Rules

variable {R : Node → List Event → Node → Prop} {tells : UInt64 → UInt64 → Prop}

theorem logs (hr : Rules tells R) {n : Node} (records : List LogRecord) :
    R n (records.map .log) n := by
  induction records with
  | nil => exact hr.nothing
  | cons record records ih => exact hr.next (hr.log record) ih

theorem andThen (hr : Rules tells R) {α β ε : Type} {n : Node} {t : Traced (Except ε α)}
    {next : α → Node → Traced (Except ε β)} (ht : R n t.events t.node)
    (hnext : ∀ a m, R m (next a m).events (next a m).node) :
    R n (t.andThen next).events (t.andThen next).node := by
  cases hv : t.value with
  | error e =>
    rw [Traced.andThen_of_error hv]
    exact ht
  | ok a =>
    rw [Traced.andThen_of_ok hv]
    exact hr.next ht (hnext a t.node)

theorem fetchBy (hr : Rules tells R) {lookUp : Node → Traced (Except LookupError UInt64)}
    (hlookUp : ∀ m, R m (lookUp m).events (lookUp m).node) {epoch : UInt64}
    (htells : ∀ m count, (lookUp m).value = .ok count → tells epoch count) (n : Node) :
    R n (n.fetchBy lookUp epoch).events (n.fetchBy lookUp epoch).node := by
  cases hc : n.counts.get? epoch with
  | some count =>
    rw [Node.fetchBy_of_known hc]
    exact hr.nothing
  | none =>
    have hask := hlookUp { n with lookups := n.lookups + 1 }
    cases hv : (lookUp { n with lookups := n.lookups + 1 }).value with
    | error e =>
      rw [Node.fetchBy_of_failed hc hv]
      exact hr.ask hc hask
    | ok count =>
      rw [Node.fetchBy_of_learnt hc hv]
      exact hr.learn (htells _ count hv) hc hask

section

variable {nested : Batch → Node → Traced Reply} (hr : Rules tells R)
  (hnested : ∀ b n, R n (nested b n).events (nested b n).node)

include hr hnested

/-- A look-up that tells no more than it may keeps to the rules, with all that it fetches. -/
theorem consult {l : Lookup} {own : UInt64}
    (hl : ∀ epoch count, l.Tells own epoch count → tells epoch count) (n : Node) :
    R n (Node.consult nested l n).events (Node.consult nested l n).node := by
  induction l generalizing own n with
  | answer result => exact hr.nothing
  | call b next ih =>
    have hcall := hr.next (hnested b n) (hr.answered (nested b n).value)
    exact hr.next hcall (ih _ (fun epoch count h => hl epoch count (.call _ h)) _)
  | fetch epoch inner next ih ih' =>
    have hinner : ∀ epoch' count, inner.Tells epoch epoch' count → tells epoch' count :=
      fun epoch' count h => hl epoch' count (.inner h)
    have hfetch := hr.fetchBy (ih hinner)
      (fun _ count hv => hinner epoch count (Node.tells_of_consult hv epoch)) n
    exact hr.next hfetch (ih' _ (fun epoch count h => hl epoch count (.next _ h)) _)

end

section

variable {env : Surroundings} {nested : Batch → Node → Traced Reply} (hr : Rules env.Tells R)
  (hnested : ∀ b n, R n (nested b n).events (nested b n).node)

include hr hnested

theorem fetchCount (epoch : UInt64) (n : Node) :
    R n (n.fetchCount env nested epoch).events (n.fetchCount env nested epoch).node :=
  hr.fetchBy (hr.consult hnested fun _ _ h => ⟨_, _, h⟩)
    (fun _ _ hv => ⟨_, _, Node.tells_of_consult hv epoch⟩) n

theorem verify (pool : Pool) (d : Decoded) (n : Node) :
    R n (n.verify env nested pool d).events (n.verify env nested pool d).node := by
  refine hr.andThen (hr.fetchCount hnested d.key.epoch n) fun count m => ?_
  refine hr.andThen hr.nothing fun _ m => ?_
  exact hr.andThen (hr.readAssignment _) fun assigned m => hr.checkSlices _

theorem process (svc : Service) (r : Request) (n : Node) :
    R n (svc.process env nested r n).events (svc.process env nested r n).node := by
  refine hr.andThen hr.nothing fun d m => ?_
  refine hr.andThen (hr.readStatus d.key) fun _ m => ?_
  exact hr.andThen (hr.verify hnested svc.pool d m) fun _ m => hr.nothing

theorem processAll (svc : Service) (i : Nat) (rs : List Request) (n : Node) :
    R n (svc.processAll env nested i rs n).events (svc.processAll env nested i rs n).node := by
  induction rs generalizing i n with
  | nil => exact hr.nothing
  | cons r rs ih =>
    have hstep := hr.process hnested svc r n
    cases hv : (svc.process env nested r n).value with
    | error cause =>
      rw [Service.processAll_cons_of_error hv]
      exact hr.next hstep (hr.logs _)
    | ok s =>
      rw [Service.processAll_cons_of_ok hv]
      exact hr.next hstep (ih (i + 1) _)

end

end Rules

namespace Service

theorem writes_commit (i total : Nat) (signed : List Signed) (n : Node) :
    Writes n (commit i total signed n).events (commit i total signed n).node := by
  induction signed generalizing i n with
  | nil => exact .done []
  | cons s rest ih =>
    rw [commit]
    cases hput : n.store.putSlices s.key s.slices with
    | error why => exact .failed _ hput
    | ok st => exact .stored hput (ih (i + 1) { n with store := st })

end Service

namespace Rules

variable {R : Node → List Event → Node → Prop} {env : Surroundings}

/-- The work of an admitted call falls into what it examines and what it writes. -/
theorem exists_signAll (hr : Rules env.Tells R) {nested : Batch → Node → Traced Reply}
    (hnested : ∀ b n, R n (nested b n).events (nested b n).node) (svc : Service) (b : Batch)
    (n : Node) :
    ∃ e m w, R n e m ∧ Writes m w (svc.signAll env nested b n).node ∧
      (svc.signAll env nested b n).events = e ++ w := by
  have hall := hr.processAll hnested svc 0 b.requests n
  have hlogged := hr.next (hr.log (Service.receivedRecord b)) hall
  cases hv : (svc.processAll env nested 0 b.requests n).value with
  | error f =>
    refine ⟨_, _, [], hlogged, ?_⟩
    rw [Service.signAll, Traced.andThen_of_error hv, List.append_nil]
    exact ⟨.done [], rfl⟩
  | ok signed =>
    have hw := Service.writes_commit 0 signed.length signed
      (svc.processAll env nested 0 b.requests n).node
    rw [Service.signAll, Traced.andThen_of_ok hv]
    exact ⟨_, _, _, hlogged, hw.andThen_log, rfl⟩

/-- **Every call keeps to the rules**, with all calls that its look-ups make. -/
theorem batchSignWithin (hr : Rules env.Tells R) (svc : Service) (depth : Nat) (b : Batch)
    (n : Node) :
    R n (svc.batchSignWithin env depth b n).events (svc.batchSignWithin env depth b n).node := by
  -- what look-ups have signed lies one level deeper, so the calls nested in this one keep to the rules
  induction depth generalizing b n with
  | zero => exact hr.log _
  | succ depth ih =>
    by_cases h : n.admission.ongoing < n.admission.max
    · obtain ⟨e, m, w, he, hw, heq⟩ := hr.exists_signAll ih svc b n.enter
      have hcall := hr.call h he hw
      rw [Service.batchSignWithin, Admission.enter?, if_pos h]
      rw [← heq] at hcall
      exact hcall
    · rw [Service.batchSignWithin, Admission.enter?, if_neg h]
      exact hr.log _

end Rules

namespace Node

variable {nested : Batch → Node → Traced Reply}
  (hnested : ∀ b n, Examines n (nested b n).events (nested b n).node) (env : Surroundings)

include hnested

theorem examines_fetchCount (epoch : UInt64) (n : Node) :
    Examines n (n.fetchCount env nested epoch).events (n.fetchCount env nested epoch).node :=
  (rules_examines env.Tells).fetchCount hnested epoch n

theorem examines_verify (pool : Pool) (d : Decoded) (n : Node) :
    Examines n (n.verify env nested pool d).events (n.verify env nested pool d).node :=
  (rules_examines env.Tells).verify hnested pool d n

end Node

namespace Service

variable {nested : Batch → Node → Traced Reply}

theorem examines_process (svc : Service) (env : Surroundings)
    (hnested : ∀ b n, Examines n (nested b n).events (nested b n).node) (r : Request) (n : Node) :
    Examines n (svc.process env nested r n).events (svc.process env nested r n).node :=
  (rules_examines env.Tells).process hnested svc r n

theorem examines_processAll (svc : Service) (env : Surroundings)
    (hnested : ∀ b n, Examines n (nested b n).events (nested b n).node) (i : Nat) (rs : List Request)
    (n : Node) :
    Examines n (svc.processAll env nested i rs n).events (svc.processAll env nested i rs n).node :=
  (rules_examines env.Tells).processAll hnested svc i rs n

theorem examines_batchSignWithin (svc : Service) (env : Surroundings) (depth : Nat) (b : Batch)
    (n : Node) :
    Examines n (svc.batchSignWithin env depth b n).events (svc.batchSignWithin env depth b n).node :=
  (rules_examines env.Tells).batchSignWithin svc depth b n

/-- The first phase of a call keeps to the rules. -/
theorem examines_examine (svc : Service) (env : Surroundings) (b : Batch) (n : Node) :
    Examines n.enter (svc.examine env b n).events (svc.examine env b n).node :=
  examines_processAll svc env (examines_batchSignWithin svc env _) 0 b.requests n.enter

end Service

end BlobSigner
