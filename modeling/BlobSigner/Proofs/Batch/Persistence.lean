import BlobSigner.Proofs.Batch.History
import BlobSigner.Proofs.Request.Process
/-!
# What a call persists

The events of a call tell which writes are its own and which are those of calls that its look-ups
make: a write belongs to the calls that have been entered and not left (`writes`). Along every
history the kept writes, in order, take the store from its beginning to its end (`Ledger`). So a
batch is persisted whole, or up to a write that fails, or not at all (`batchSign_persists`).
-/
namespace BlobSigner

/-! ## The writes of a history -/

/-- A write that was tried. -/
structure Write where
  /-- How many calls it happens within, its own being the last. -/
  depth : Nat
  entry : BlobKey × List Slice
  stored : Bool

/-- The writes of a history that begins within `depth` calls. -/
def writes (depth : Nat) : List Event → List Write
  | [] => []
  | .enter _ :: es => writes (depth + 1) es
  | .leave _ :: es => writes (depth - 1) es
  | .write k slices stored :: es => ⟨depth, (k, slices), stored⟩ :: writes depth es
  | _ :: es => writes depth es

/-- What the writes leave behind, in their order. -/
def kept (ws : List Write) : List (BlobKey × List Slice) :=
  (ws.filter Write.stored).map Write.entry

/-- Neither a write nor a bound of a call. -/
def Event.Quiet : Event → Prop
  | .enter _ => False
  | .leave _ => False
  | .write _ _ _ => False
  | _ => True

/-- All that may still happen once a batch has been examined. -/
def Event.Final : Event → Prop
  | .log _ => True
  | .write _ _ _ => True
  | .leave _ => True
  | _ => False

@[simp] theorem writes_enter (depth k : Nat) (es : List Event) :
    writes depth (.enter k :: es) = writes (depth + 1) es := rfl

@[simp] theorem writes_leave (depth k : Nat) (es : List Event) :
    writes (depth + 1) (.leave k :: es) = writes depth es := rfl

@[simp] theorem writes_log (depth : Nat) (record : LogRecord) (es : List Event) :
    writes depth (.log record :: es) = writes depth es := rfl

theorem kept_append (ws ws' : List Write) : kept (ws ++ ws') = kept ws ++ kept ws' := by
  simp only [kept, List.filter_append, List.map_append]

theorem writes_quiet {depth : Nat} {es rest : List Event} (h : ∀ e ∈ es, e.Quiet) :
    writes depth (es ++ rest) = writes depth rest := by
  induction es with
  | nil => rfl
  | cons e es ih =>
    obtain ⟨he, hes⟩ := List.forall_mem_cons.1 h
    rw [← ih hes]
    cases e with
    | enter _ => exact absurd he id
    | leave _ => exact absurd he id
    | write _ _ _ => exact absurd he id
    | _ => rfl

theorem quiet_logs (records : List LogRecord) : ∀ e ∈ records.map Event.log, e.Quiet :=
  List.forall_mem_map.2 fun _ _ => trivial

theorem writes_stored (depth : Nat) (signed : List Signed) (rest : List Event) :
    writes depth ((signed.map fun s => Event.storing s.entry) ++ rest) =
      (signed.map fun s => ⟨depth, s.entry, true⟩) ++ writes depth rest := by
  induction signed with
  | nil => rfl
  | cons s signed ih =>
    simp only [List.map_cons, List.cons_append, ← ih]
    rfl

theorem writes_stopped (depth : Nat) (done : List Signed) (s : Signed) (records : List LogRecord) :
    writes depth ((done.map fun s => Event.storing s.entry) ++
      .write s.key s.slices false :: records.map .log) =
      (done.map fun s => ⟨depth, s.entry, true⟩) ++ [⟨depth, s.entry, false⟩] := by
  have hlogs := @writes_quiet depth _ [] (quiet_logs records)
  rw [List.append_nil] at hlogs
  rw [writes_stored, writes, hlogs]
  rfl

/-! ## Books -/

/-- Books that add up: the history closes every call that it opens, each write is at a depth that
the history's own depth allows, and the writes that are kept make the store what it becomes. -/
structure Ledger (allows : Nat → Nat → Prop) (n : Node) (es : List Event) (n' : Node) : Prop where
  closed : ∀ depth rest, writes depth (es ++ rest) = writes depth es ++ writes depth rest
  within : ∀ depth, ∀ w ∈ writes depth es, allows depth w.depth
  kept : ∀ depth, Store.putAll (kept (writes depth es)) n.store = .ok n'.store

namespace Ledger

variable {allows : Nat → Nat → Prop} {n m n' : Node} {es es' : List Event}

theorem of_quiet (h : ∀ e ∈ es, e.Quiet) (hstore : n'.store = n.store) : Ledger allows n es n' := by
  have hnone : ∀ depth, writes depth es = [] := fun depth => by
    rw [← List.append_nil es, writes_quiet h]
    rfl
  refine ⟨fun depth rest => ?_, fun depth => ?_, fun depth => ?_⟩
  · rw [hnone, writes_quiet h, List.nil_append]
  · rw [hnone]
    exact nofun
  · rw [hnone, hstore]
    rfl

theorem append (h : Ledger allows n es m) (h' : Ledger allows m es' n') :
    Ledger allows n (es ++ es') n' := by
  refine ⟨fun depth rest => ?_, fun depth w hw => ?_, fun depth => ?_⟩
  · rw [List.append_assoc, h.closed, h'.closed, h.closed, List.append_assoc]
  · rw [h.closed] at hw
    rcases List.mem_append.1 hw with hw | hw
    · exact h.within depth w hw
    · exact h'.within depth w hw
  · rw [h.closed, kept_append]
    exact Store.putAll_append (h.kept depth) (h'.kept depth)

/-- A write is at the depth of the history. -/
theorem write {k : BlobKey} {slices : List Slice} {stored : Bool}
    (h : Store.putAll (if stored then [(k, slices)] else []) n.store = .ok n'.store) :
    Ledger (· = ·) n [.write k slices stored] n' := by
  refine ⟨fun depth rest => rfl, fun depth w hw => ?_, fun depth => ?_⟩
  · rw [List.mem_singleton.1 hw]
  · cases stored <;> exact h

/-- What is the call's own is nested in what contains the call. -/
theorem call {e w : List Event} {k j : Nat} (he : Ledger (· < ·) n.enter e m)
    (hw : Ledger (· = ·) m w n') :
    Ledger (· < ·) n (.enter k :: (e ++ w) ++ [.leave j]) n'.release := by
  -- after the call the history goes on at the depth that it had before
  have hsplit : ∀ depth rest, writes depth ((.enter k :: (e ++ w) ++ [.leave j]) ++ rest) =
      (writes (depth + 1) e ++ writes (depth + 1) w) ++ writes depth rest := fun depth rest => by
    rw [List.append_assoc, List.cons_append, List.append_assoc, List.append_assoc, writes_enter,
      he.closed, hw.closed, List.singleton_append, writes_leave]
  have hself : ∀ depth, writes depth (.enter k :: (e ++ w) ++ [.leave j]) =
      writes (depth + 1) e ++ writes (depth + 1) w := fun depth => by
    have h := hsplit depth []
    rw [List.append_nil] at h
    rw [h, writes, List.append_nil]
  refine ⟨fun depth rest => by rw [hsplit, hself], fun depth x hx => ?_, fun depth => ?_⟩
  · rw [hself] at hx
    rcases List.mem_append.1 hx with hx | hx
    · exact Nat.lt_of_succ_lt (he.within _ x hx)
    · exact hw.within _ x hx ▸ Nat.lt_succ_self depth
  · rw [hself, kept_append]
    exact Store.putAll_append (he.kept _) (hw.kept _)

end Ledger

theorem Writes.ledger {n n' : Node} {es : List Event} (h : Writes n es n') :
    Ledger (· = ·) n es n' := by
  induction h with
  | done records => exact .of_quiet (quiet_logs records) rfl
  | @stored n n' k slices st w hput _ ih =>
    have hwrite : Ledger (· = ·) n [.write k slices true] { n with store := st } :=
      .write (by simp only [if_true, Store.putAll, hput])
    exact hwrite.append ih
  | @failed n k slices why records hput =>
    have hwrite : Ledger (· = ·) n [.write k slices false] n := .write rfl
    exact hwrite.append (.of_quiet (quiet_logs records) rfl)

theorem Writes.final {n n' : Node} {es : List Event} (h : Writes n es n') : ∀ e ∈ es, e.Final := by
  induction h with
  | done records => exact List.forall_mem_map.2 fun _ _ => trivial
  | stored _ _ ih => exact List.forall_mem_cons.2 ⟨trivial, ih⟩
  | failed records _ =>
    exact List.forall_mem_cons.2 ⟨trivial, List.forall_mem_map.2 fun _ _ => trivial⟩

/-- **The books of every history add up**, and its writes are all those of calls within it. -/
theorem Examines.ledger {n n' : Node} {es : List Event} (h : Examines n es n') :
    Ledger (· < ·) n es n' := by
  induction h with
  | nothing => exact .of_quiet nofun rfl
  | next _ _ ih ih' => exact ih.append ih'
  | log record => exact .of_quiet (List.forall_mem_singleton.2 trivial) rfl
  | readStatus k => exact .of_quiet (List.forall_mem_singleton.2 trivial) rfl
  | readAssignment k => exact .of_quiet (List.forall_mem_singleton.2 trivial) rfl
  | answered reply => exact .of_quiet (List.forall_mem_singleton.2 trivial) rfl
  | checkSlices calls => exact .of_quiet (List.forall_mem_map.2 fun _ _ => trivial) rfl
  | @ask n n' epoch e _ _ ih => exact ⟨ih.closed, ih.within, ih.kept⟩
  | @learn n n' epoch e count _ _ ih => exact ⟨ih.closed, ih.within, ih.kept⟩
  | call _ _ hw ih => exact ih.call hw.ledger

/-! ## How a call ends -/

namespace Service

variable {svc : Service} {env : Surroundings} {b : Batch} {n : Node}

/-- The answer of a call together with the writes that it makes of its own. -/
inductive Ends (svc : Service) (env : Surroundings) (b : Batch) (n : Node) :
    Reply → List Write → Prop where
  | shed : ¬ n.admission.ongoing < n.admission.max →
      Ends svc env b n ⟨Admission.overloaded.status, []⟩ []
  | rejected {i : Nat} {cause : Rejection} : i < b.requests.length →
      (svc.examine env b n).value = .error (.rejected i cause) →
      Ends svc env b n ⟨⟨cause.kind.statusCode, s!"request {i}: " ++ cause.message⟩, []⟩ []
  | unwritten {done rest : List Signed} {s : Signed} {st : Store} {why : String} :
      (svc.examine env b n).value = .ok (done ++ s :: rest) →
      List.Forall₂ (Signs svc) b.requests (done ++ s :: rest) →
      Store.putAll (done.map Signed.entry) (svc.examine env b n).node.store = .ok st →
      st.putSlices s.key s.slices = .error why →
      Ends svc env b n ⟨⟨.internal, s!"request {done.length}: " ++ "put slice error: " ++ why⟩, []⟩
        ((done.map fun s => ⟨1, s.entry, true⟩) ++ [⟨1, s.entry, false⟩])
  | written {signed : List Signed} {st : Store} :
      (svc.examine env b n).value = .ok signed → List.Forall₂ (Signs svc) b.requests signed →
      Store.putAll (signed.map Signed.entry) (svc.examine env b n).node.store = .ok st →
      Ends svc env b n ⟨.ok, signed.map Signed.signature⟩ (signed.map fun s => ⟨1, s.entry, true⟩)

theorem signs_of_processAll {nested : Batch → Node → Traced Reply} {i : Nat} {rs : List Request}
    {signed : List Signed} (h : (svc.processAll env nested i rs n).value = .ok signed) :
    List.Forall₂ (Signs svc) rs signed := by
  induction rs generalizing i n signed with
  | nil =>
    cases h
    exact .nil
  | cons r rs ih =>
    obtain ⟨s, later, hr, hrest, rfl⟩ := exists_of_processAll_cons h
    exact .cons (signs_of_process hr) (ih hrest)

/-- The books of a whole call, from those of its two phases. -/
theorem books_of_phases (svc : Service) (env : Surroundings) (b : Batch) (n : Node) {n' : Node}
    {w : List Event} (hw : Writes (svc.examine env b n).node w n') (k j : Nat) (record : LogRecord) :
    let es := .enter k :: .log record :: ((svc.examine env b n).events ++ w) ++ [.leave j]
    ∃ work rest, es = work ++ rest ∧ (∀ e ∈ rest, e.Final) ∧ (∀ w ∈ writes 0 work, 1 < w.depth) ∧
      writes 0 es = writes 0 work ++ writes 1 w ∧ n'.store.statuses = n.store.statuses ∧
      n'.store.assignments = n.store.assignments ∧
      n'.store.slices = n.store.slices.insertAll (kept (writes 0 es)) := by
  intro es
  have hbooks := (examines_examine svc env b n).ledger
  have hown := hw.ledger
  have hes : es = (.enter k :: .log record :: (svc.examine env b n).events) ++ (w ++ [.leave j]) := by
    simp only [es, List.cons_append, List.append_assoc]
  have hwrites : writes 0 es = writes 1 (svc.examine env b n).events ++ writes 1 w := by
    have hlast : writes 1 [.leave j] = [] := rfl
    simp only [hes, List.cons_append, writes_enter, writes_log, Nat.zero_add]
    rw [hbooks.closed, hown.closed, hlast, List.append_nil]
  refine ⟨_, _, hes, ?_, hbooks.within 1, hwrites, ?_⟩
  · exact List.forall_mem_append.2 ⟨hw.final, List.forall_mem_singleton.2 trivial⟩
  · rw [hwrites, kept_append]
    exact Store.tables_of_putAll (Store.putAll_append (hbooks.kept 1) (hown.kept 1))

/-- **A batch is persisted whole, or up to a write that fails, or not at all.** The writes of a call
are those of the calls nested in it and then its own, which come after all that it examines. They
make the table of slices, where a later write of a blob replaces an earlier one, and leave the other
tables as they are. -/
theorem batchSign_persists (svc : Service) (env : Surroundings) (b : Batch) (n : Node) :
    let t := svc.batchSign env b n
    ∃ work rest own, t.events = work ++ rest ∧ (∀ e ∈ rest, e.Final) ∧
      (∀ w ∈ writes 0 work, 1 < w.depth) ∧ writes 0 t.events = writes 0 work ++ own ∧
      svc.Ends env b n t.value own ∧ t.node.store.statuses = n.store.statuses ∧
      t.node.store.assignments = n.store.assignments ∧
      t.node.store.slices = n.store.slices.insertAll (kept (writes 0 t.events)) := by
  intro t
  by_cases h : n.admission.ongoing < n.admission.max
  · cases hv : (svc.examine env b n).value with
    | error f =>
      obtain ⟨before, r, after, cause, heq, rfl⟩ := processAll_error hv
      have ht : t = _ := batchSign_of_rejected h hv
      rw [ht, ← List.append_nil (svc.examine env b n).events]
      obtain ⟨work, rest, hes, hfinal, hnested, hwrites, htables⟩ :=
        books_of_phases svc env b n (.done []) (n.admission.ongoing + 1)
          (svc.examine env b n).node.admission.leave.ongoing (receivedRecord b)
      refine ⟨work, rest, _, hes, hfinal, hnested, hwrites, ?_, htables⟩
      exact .rejected (by rw [heq, List.length_append, List.length_cons]; omega) hv
    | ok signed =>
      have hsigned : List.Forall₂ (Signs svc) b.requests signed := signs_of_processAll hv
      have hw := writes_commit 0 signed.length signed (svc.examine env b n).node
      obtain ⟨hbad, hgood⟩ := batchSign_of_signed h hv
      rcases commit_or_stop signed (svc.examine env b n).node.store with
        ⟨st, hst⟩ | ⟨done, s, tail, st, why, rfl, hdone, hfail⟩
      · rw [commit_of_putAll hst] at hw hgood
        have ht : t = _ := hgood rfl
        rw [ht]
        obtain ⟨work, rest, hes, hfinal, hnested, hwrites, htables⟩ :=
          books_of_phases svc env b n (hw.append_log _) _ _ _
        refine ⟨work, rest, _, hes, hfinal, hnested, hwrites, ?_, htables⟩
        rw [writes_stored, writes_log, writes, List.append_nil]
        exact .written hv hsigned hst
      · rw [commit_of_stop hdone hfail, Nat.zero_add] at hw hbad
        have ht : t = _ := hbad _ rfl
        rw [ht]
        obtain ⟨work, rest, hes, hfinal, hnested, hwrites, htables⟩ :=
          books_of_phases svc env b n hw _ _ _
        refine ⟨work, rest, _, hes, hfinal, hnested, hwrites, ?_, htables⟩
        rw [writes_stopped]
        exact .unwritten hv hsigned hdone hfail
  · have ht : t = shed n := batchSign_of_full h
    rw [ht]
    exact ⟨[], _, [], rfl, List.forall_mem_singleton.2 trivial, nofun, rfl, .shed h, rfl, rfl, rfl⟩

end Service

end BlobSigner
