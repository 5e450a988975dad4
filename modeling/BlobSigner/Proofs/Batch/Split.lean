import BlobSigner.Proofs.Batch.Outcome
import BlobSigner.Proofs.SliceCheck.OneWorker
/-!
# Batches in parts

A batch can be signed in two parts, one after the other: both calls succeed exactly if one call of
the whole does, and what they answer and leave behind is the same (`batchSign_append`). The parts are
written in between, but no check of the second reads what the first has written. With one worker
even the proofs are asked for in the same order, for they are those of the requests
(`sliceCalls_batchSign`).
-/
namespace BlobSigner

variable {reply : Nat → UInt64 → Except LookupError UInt64} {n : Node} {r : Request}
variable {rs : List Request} {d : Decoded}

/-! ## The proofs asked for -/

def Event.sliceCall? : Event → Option SliceCall
  | .checkSlice call => some call
  | _ => none

/-- The proofs asked for in a history, in order. -/
def sliceCalls (es : List Event) : List SliceCall := es.filterMap Event.sliceCall?

@[simp] theorem sliceCalls_nil : sliceCalls [] = [] := rfl

@[simp] theorem sliceCalls_enter (k : Nat) (es : List Event) :
    sliceCalls (.enter k :: es) = sliceCalls es := rfl

@[simp] theorem sliceCalls_leave (k : Nat) (es : List Event) :
    sliceCalls (.leave k :: es) = sliceCalls es := rfl

@[simp] theorem sliceCalls_log (record : LogRecord) (es : List Event) :
    sliceCalls (.log record :: es) = sliceCalls es := rfl

theorem sliceCalls_append (es es' : List Event) :
    sliceCalls (es ++ es') = sliceCalls es ++ sliceCalls es' :=
  List.filterMap_append

theorem sliceCalls_checkSlices (calls : List SliceCall) :
    sliceCalls (calls.map .checkSlice) = calls := by
  rw [sliceCalls, List.filterMap_map]
  exact List.filterMap_some

theorem sliceCalls_final {es : List Event} (h : ∀ e ∈ es, e.Final) : sliceCalls es = [] := by
  refine List.filterMap_eq_nil_iff.2 fun e he => ?_
  cases e with
  | checkSlice call => exact absurd (h _ he) id
  | _ => rfl

/-- One proof for each slice of a request, in order. -/
def Decoded.calls (d : Decoded) : List SliceCall :=
  d.slices.zipIdx.map fun p => ⟨p.2, p.1, d.commitment, d.key.root⟩

/-- The proofs of a request that can be read. -/
def Request.calls (limit : UInt64) (r : Request) : List SliceCall :=
  match r.decode limit with
  | .error _ => []
  | .ok d => d.calls

theorem SliceCheck.snd_scan_of_good {check : SliceCheck} {root : StorageRoot} {commitment : G1} {i : Nat}
    {slices : List Slice} (h : ∀ s ∈ slices, check s commitment root = .accepted) :
    (scan check root commitment i (slices.zip (slices.map Slice.index))).2 =
      (slices.zipIdx i).map fun p => ⟨p.2, p.1, commitment, root⟩ := by
  induction slices generalizing i with
  | nil => rfl
  | cons s slices ih =>
    obtain ⟨hs, hslices⟩ := List.forall_mem_cons.1 h
    rw [List.map_cons, List.zip_cons_cons, scan, if_neg (not_not.2 rfl), hs]
    simp only [ih hslices, List.zipIdx_cons, List.map_cons]

variable {svc : Service} {env : Surroundings} {nested : Batch → Node → Traced Reply} {b : Batch}

namespace Node

theorem sliceCalls_fetchCount (hp : env.Answers reply) (epoch : UInt64) :
    sliceCalls (n.fetchCount env nested epoch).events = [] := by
  unfold fetchCount fetchBy
  cases n.counts.get? epoch with
  | some count => rfl
  | none =>
    rw [hp n.lookups epoch]
    cases reply n.lookups epoch <;> rfl

/-- One worker asks for the proofs of a request that passes. -/
theorem sliceCalls_verify (hp : env.Answers reply) {pool : Pool} (hone : pool.workers = 1)
    {limit : UInt64} (h : r.Passes limit env.check n.store (n.countOf reply) d) :
    sliceCalls (n.verify env nested pool d).events = d.calls := by
  obtain ⟨count, hcount, hlt⟩ := h.seated
  obtain ⟨hvalue, hnode⟩ := fetchCount_of_answers nested hp n d.key.epoch
  have hlength : (d.slices.map Slice.index).length = d.slices.length := List.length_map _
  rw [verify, Traced.andThen_of_ok (a := count), Traced.map, hnode,
    checkQuorum_of_lt (k := d.key.quorumKey) hlt, Traced.andThen_of,
    Traced.andThen_of_ok (a := d.slices.map Slice.index)]
  · simp only [Traced.after, readAssignment, checkSlices, sliceCalls_append, sliceCalls_checkSlices,
      sliceCalls_fetchCount hp]
    rw [SliceCheck.calls_of_one_worker hone _ hlength, SliceCheck.snd_scan_of_good h.proofs]
    rfl
  · simp only [readAssignment, store_asked, h.assigned]
    rfl
  · simp only [Traced.map, hvalue, hcount, Except.mapError]

end Node

namespace Service

theorem sliceCalls_process (hp : env.Answers reply) (hone : svc.pool.workers = 1)
    (h : r.Passes svc.payloadLimit env.check n.store (n.countOf reply) d) :
    sliceCalls (svc.process env nested r n).events = r.calls svc.payloadLimit := by
  obtain ⟨s, -, hvalue, -⟩ : ∃ s, svc.Signs r s ∧ (svc.process env nested r n).value = .ok s ∧
      (svc.process env nested r n).node = n.served reply r := process_of_passes hp h
  rw [process_of_awaited env nested h.toAwaited] at hvalue ⊢
  obtain ⟨_, hverify, -⟩ := Traced.exists_of_andThen_ok hvalue
  rw [Traced.andThen_of_ok hverify, Request.calls, Request.decode_of_decodes h.toDecodes]
  simp only [Traced.after, Traced.of, List.append_nil, sliceCalls_append,
    Node.sliceCalls_verify hp hone h]
  rfl

theorem sliceCalls_processAll (hp : env.Answers reply) (hone : svc.pool.workers = 1) {i : Nat}
    (h : svc.AcceptsAll env reply n rs) :
    sliceCalls (svc.processAll env nested i rs n).events =
      rs.flatMap (Request.calls svc.payloadLimit) := by
  induction rs generalizing i n with
  | nil => rfl
  | cons r rs ih =>
    obtain ⟨⟨d, hd⟩, hrs⟩ := h
    obtain ⟨s, -, hvalue, hnode⟩ : ∃ s, svc.Signs r s ∧ (svc.process env nested r n).value = .ok s ∧
        (svc.process env nested r n).node = n.served reply r := process_of_passes hp hd
    rw [processAll_cons_of_ok hvalue, hnode, Traced.after, sliceCalls_append,
      sliceCalls_process hp hone hd, Traced.events_map, ih hrs, List.flatMap_cons]

/-- A call with one worker that accepts its batch asks for the proofs of its requests. -/
theorem sliceCalls_batchSign (hp : env.Answers reply) (hone : svc.pool.workers = 1)
    (h : n.admission.ongoing < n.admission.max) (hall : svc.AcceptsAll env reply n b.requests) :
    sliceCalls (svc.batchSign env b n).events =
      b.requests.flatMap (Request.calls svc.payloadLimit) := by
  obtain ⟨signed, -, hvalue, -⟩ := examine_of_accepted hp hall
  have hexamine : sliceCalls (svc.examine env b n).events = _ :=
    sliceCalls_processAll hp hone (acceptsAll_enter.2 hall)
  have hcommit := sliceCalls_final
    (writes_commit 0 signed.length signed (svc.examine env b n).node).final
  obtain ⟨hbad, hgood⟩ := batchSign_of_signed h hvalue
  cases hw : (commit 0 signed.length signed (svc.examine env b n).node).value with
  | error f =>
    rw [hbad f hw, ← hexamine]
    simp [sliceCalls_append, hcommit]
  | ok _ =>
    rw [hgood hw, ← hexamine]
    simp [sliceCalls_append, hcommit]

/-! ## One call for two -/

theorem acceptsAll_append {rs' : List Request} :
    svc.AcceptsAll env reply n (rs ++ rs') ↔
      svc.AcceptsAll env reply n rs ∧ svc.AcceptsAll env reply (rs.foldl (Node.served reply) n) rs' := by
  induction rs generalizing n with
  | nil => simp [AcceptsAll]
  | cons r rs ih => rw [List.cons_append, AcceptsAll, AcceptsAll, ih, List.foldl_cons, and_assoc]

/-- The order of events in the pool makes no difference to what is accepted. -/
theorem acceptsAll_schedule {schedule : Nat → Pool.Schedule} :
    svc.AcceptsAll { env with schedule := schedule } reply n rs ↔ svc.AcceptsAll env reply n rs := by
  induction rs generalizing n with
  | nil => exact Iff.rfl
  | cons r rs ih => exact and_congr Iff.rfl ih

theorem exists_forall₂_append {α β : Type} {R : α → β → Prop} {l₁ l₂ : List α} {l : List β}
    (h : List.Forall₂ R (l₁ ++ l₂) l) :
    ∃ m₁ m₂, l = m₁ ++ m₂ ∧ List.Forall₂ R l₁ m₁ ∧ List.Forall₂ R l₂ m₂ :=
  ⟨l.take l₁.length, l.drop l₁.length, (List.take_append_drop _ _).symm,
    (List.forall₂_take_append _ _ _ h.flip).flip, (List.forall₂_drop_append _ _ _ h.flip).flip⟩

theorem completes_schedule {schedule : Nat → Pool.Schedule} {signed : List Signed} {st : Store} :
    svc.Completes { env with schedule := schedule } reply rs n signed st ↔
      svc.Completes env reply rs n signed st :=
  ⟨fun h => ⟨acceptsAll_schedule.1 h.accepted, h.signs, h.stores⟩,
    fun h => ⟨acceptsAll_schedule.2 h.accepted, h.signs, h.stores⟩⟩

/-- What completes for the whole completes for its parts, the second on the node that the first
leaves. -/
theorem completes_append_iff {rs' : List Request} {signed : List Signed} {st : Store} :
    svc.Completes env reply (rs ++ rs') n signed st ↔ ∃ done later st', signed = done ++ later ∧
      svc.Completes env reply rs n done st' ∧
      svc.Completes env reply rs' { rs.foldl (Node.served reply) n with store := st' } later st := by
  -- the writes in between are not read by the checks of the second part
  have hreads : ∀ {done : List Signed} {st' : Store},
      Store.putAll (done.map Signed.entry) n.store = .ok st' →
      (svc.AcceptsAll env reply { rs.foldl (Node.served reply) n with store := st' } rs' ↔
        svc.AcceptsAll env reply (rs.foldl (Node.served reply) n) rs') := fun hput => by
    obtain ⟨hstatus, hassigned⟩ := Store.reads_of_putAll hput
    exact acceptsAll_withStore (by rw [hstatus, Node.store_foldl_served])
      (by rw [hassigned, Node.store_foldl_served])
  constructor
  · rintro ⟨haccepted, hsigns, hstores⟩
    obtain ⟨hfirst, hsecond⟩ := acceptsAll_append.1 haccepted
    obtain ⟨done, later, rfl, hdone, hlater⟩ := exists_forall₂_append hsigns
    rw [List.map_append] at hstores
    obtain ⟨st', hput, hrest⟩ := Store.exists_of_putAll_append hstores
    exact ⟨done, later, st', rfl, ⟨hfirst, hdone, hput⟩, ⟨(hreads hput).2 hsecond, hlater, hrest⟩⟩
  · rintro ⟨done, later, st', rfl, hdone, hlater⟩
    refine ⟨acceptsAll_append.2 ⟨hdone.accepted, (hreads hdone.stores).1 hlater.accepted⟩,
      List.rel_append hdone.signs hlater.signs, ?_⟩
    rw [List.map_append]
    exact Store.putAll_append hdone.stores hlater.stores

section

variable {first second : List Request} {peer₁ peer₂ : String} {schedule₁ schedule₂ : Nat → Pool.Schedule}

/-- The second call finds as many calls in progress as the first did. -/
theorem room_after (h : n.admission.ongoing < n.admission.max) :
    let m := (svc.batchSign env b n).node
    m.admission.ongoing < m.admission.max := by
  intro m
  have hsame : m.admission = n.admission := (examines_batchSign svc env b n).admission_eq
  rwa [hsame]

/-- What two calls in a row answer, leave and ask for when both parts complete. -/
theorem result_parts {done later : List Signed} {st st' : Store} (hp : env.Answers reply)
    (h : n.admission.ongoing < n.admission.max) (hdone : svc.Completes env reply first n done st')
    (hlater : svc.Completes env reply second
      { first.foldl (Node.served reply) n with store := st' } later st) :
    let u := svc.batchSign { env with schedule := schedule₁ } ⟨first, peer₁⟩ n
    let w := svc.batchSign { env with schedule := schedule₂ } ⟨second, peer₂⟩ u.node
    u.value = .of (.ok (done.map Signed.signature)) ∧
      w.value = .of (.ok (later.map Signed.signature)) ∧
      w.node = { (first ++ second).foldl (Node.served reply) n with store := st } ∧
      (svc.pool.workers = 1 → sliceCalls u.events ++ sliceCalls w.events =
        (first ++ second).flatMap (Request.calls svc.payloadLimit)) := by
  intro u w
  have hp₁ : Surroundings.Answers { env with schedule := schedule₁ } reply := hp
  have hp₂ : Surroundings.Answers { env with schedule := schedule₂ } reply := hp
  have hfree : u.node.admission.ongoing < u.node.admission.max := room_after h
  have hfirst : svc.Completes { env with schedule := schedule₁ } reply first n done st' :=
    completes_schedule.2 hdone
  obtain ⟨huvalue, hunode⟩ := hfirst.result (b := ⟨first, peer₁⟩) hp₁ h
  rw [← hunode] at hlater
  have hsecond : svc.Completes { env with schedule := schedule₂ } reply second u.node later st :=
    completes_schedule.2 hlater
  obtain ⟨hwvalue, hwnode⟩ := hsecond.result (b := ⟨second, peer₂⟩) hp₂ hfree
  refine ⟨huvalue, hwvalue, ?_, fun hone => ?_⟩
  · have hserved : second.foldl (Node.served reply) u.node =
        { (first ++ second).foldl (Node.served reply) n with store := st' } := by
      rw [show u.node = _ from hunode, Node.foldl_served_withStore, List.foldl_append]
    rw [show w.node = _ from hwnode]
    simp only
    rw [hserved]
  · have hu := sliceCalls_batchSign (b := ⟨first, peer₁⟩) hp₁ hone h hfirst.accepted
    have hw := sliceCalls_batchSign (b := ⟨second, peer₂⟩) hp₂ hone hfree hsecond.accepted
    rw [List.flatMap_append, ← hu, ← hw]

theorem completes_of_parts (hp : env.Answers reply) (h : n.admission.ongoing < n.admission.max) :
    let u := svc.batchSign { env with schedule := schedule₁ } ⟨first, peer₁⟩ n
    let w := svc.batchSign { env with schedule := schedule₂ } ⟨second, peer₂⟩ u.node
    u.value.status.isOk → w.value.status.isOk →
      ∃ signed st, svc.Completes env reply (first ++ second) n signed st := by
  intro u w hu hw
  have hp₁ : Surroundings.Answers { env with schedule := schedule₁ } reply := hp
  have hp₂ : Surroundings.Answers { env with schedule := schedule₂ } reply := hp
  obtain ⟨done, st', hdone⟩ := exists_completes hp₁ h hu
  obtain ⟨later, st, hlater⟩ := exists_completes hp₂ (room_after h) hw
  rw [show u.node = _ from (hdone.result hp₁ h).2] at hlater
  exact ⟨_, st, completes_append_iff.2 ⟨done, later, st', rfl, completes_schedule.1 hdone,
    completes_schedule.1 hlater⟩⟩

end

/-- **A batch can be signed in two parts.** One call of the whole succeeds exactly if a call of the
first part and then one of the second do. It answers with the signatures of the two, one after the
other, and leaves the node that they leave; one worker asks for the same proofs in the same order. -/
theorem batchSign_append {first second : List Request} {peer peer₁ peer₂ : String}
    {schedule₁ schedule₂ : Nat → Pool.Schedule} (hp : env.Answers reply)
    (h : n.admission.ongoing < n.admission.max) :
    let t := svc.batchSign env ⟨first ++ second, peer⟩ n
    let u := svc.batchSign { env with schedule := schedule₁ } ⟨first, peer₁⟩ n
    let w := svc.batchSign { env with schedule := schedule₂ } ⟨second, peer₂⟩ u.node
    (t.value.status.isOk ↔ u.value.status.isOk ∧ w.value.status.isOk) ∧
      (t.value.status.isOk →
        t.value.signatures = u.value.signatures ++ w.value.signatures ∧ t.node = w.node ∧
          (svc.pool.workers = 1 →
            sliceCalls t.events = sliceCalls u.events ++ sliceCalls w.events)) := by
  intro t u w
  -- what is said of the parts when the whole completes
  have hparts : t.value.status.isOk → ∃ signed st done later, signed = done ++ later ∧
      svc.Completes env reply (first ++ second) n signed st ∧
      u.value = .of (.ok (done.map Signed.signature)) ∧
      w.value = .of (.ok (later.map Signed.signature)) ∧
      w.node = { (first ++ second).foldl (Node.served reply) n with store := st } ∧
      (svc.pool.workers = 1 → sliceCalls u.events ++ sliceCalls w.events =
        (first ++ second).flatMap (Request.calls svc.payloadLimit)) := fun hok => by
    obtain ⟨signed, st, hall⟩ := exists_completes hp h hok
    obtain ⟨done, later, st', rfl, hdone, hlater⟩ := completes_append_iff.1 hall
    exact ⟨_, st, done, later, rfl, hall, result_parts hp h hdone hlater⟩
  refine ⟨⟨fun hok => ?_, fun ⟨hu, hw⟩ => ?_⟩, fun hok => ?_⟩
  · obtain ⟨_, _, _, _, -, -, huvalue, hwvalue, -⟩ := hparts hok
    rw [huvalue, hwvalue]
    exact ⟨rfl, rfl⟩
  · obtain ⟨signed, st, hall⟩ := completes_of_parts hp h hu hw
    exact hall.isOk (b := ⟨first ++ second, peer⟩) hp h
  · obtain ⟨_, st, done, later, rfl, hall, huvalue, hwvalue, hwnode, hcalls⟩ := hparts hok
    obtain ⟨htvalue, htnode⟩ := hall.result (b := ⟨first ++ second, peer⟩) hp h
    refine ⟨?_, htnode.trans hwnode.symm, fun hone => ?_⟩
    · rw [show t.value = _ from htvalue, huvalue, hwvalue]
      exact List.map_append
    · rw [hcalls hone]
      exact sliceCalls_batchSign (b := ⟨first ++ second, peer⟩) hp hone h hall.accepted

/-- Two requests, each in a batch of its own. -/
theorem batchSign_append_single :
    let svc : Service := ⟨1, 64, ⟨1, by decide⟩, by decide⟩
    let env : Surroundings := ⟨fun _ _ => .answer (.ok 3), fun _ _ _ => .accepted, fun _ => []⟩
    let k : UInt64 → BlobKey := fun quorum => ⟨5, quorum, .zero⟩
    let r : UInt64 → Request := fun quorum => ⟨5, quorum, Bytes32.zero.toList,
      1 :: List.replicate 31 0 ++ 2 :: List.replicate 31 0, [[0, 0, 0, 0, 0, 0, 0, 7, 0, 0, 0, 0]]⟩
    let store := (((Store.empty.setStatus (k 1) .uploaded).setAssignment (k 1).quorumKey [7]).setStatus
      (k 2) .uploaded).setAssignment (k 2).quorumKey [7]
    let n : Node := { Node.init .idle with store := store }
    env.Answers (fun _ _ => .ok 3) ∧ n.admission.ongoing < n.admission.max ∧
      (svc.batchSign env ⟨[r 1] ++ [r 2], ""⟩ n).node =
        (svc.batchSign env ⟨[r 2], ""⟩ (svc.batchSign env ⟨[r 1], ""⟩ n).node).node := by
  intro svc env k r store n
  have hp : env.Answers fun _ _ => .ok 3 := fun _ _ => rfl
  have hfree : n.admission.ongoing < n.admission.max := by decide
  have hcheck : ∀ s C root, env.check s C root = .accepted := fun _ _ _ => rfl
  have hall : svc.AcceptsAll env (fun _ _ => .ok 3) n ([r 1] ++ [r 2]) :=
    acceptsAll_iff_forall.2 (List.forall_mem_cons.2
      ⟨⟨_, Request.passes_of_generator rfl rfl (by decide) rfl hcheck⟩,
        List.forall_mem_singleton.2 ⟨_, Request.passes_of_generator rfl rfl (by decide) rfl hcheck⟩⟩)
  obtain ⟨signed, -, hvalue⟩ :=
    batchSign_of_accepted (b := ⟨[r 1] ++ [r 2], ""⟩) hp hfree hall nofun
  have hok : (svc.batchSign env ⟨[r 1] ++ [r 2], ""⟩ n).value.status.isOk := by
    rw [hvalue]
    rfl
  exact ⟨hp, hfree, ((batchSign_append hp hfree).2 hok).2.1⟩

end Service

end BlobSigner
