import BlobSigner.Proofs.Batch.Secrecy
import BlobSigner.Proofs.Batch.Verdict
import BlobSigner.Session
/-!
# Sessions with different keys

Sessions that have all but the key of their service in common stay so with every step, and show the
same but for the bytes of signatures (`perform_alike`, `run_alike`). Sessions started with different
keys are of this kind from the beginning.
-/
namespace BlobSigner

def Answer.redact : Answer → Answer
  | .reply r left => .reply r.redact left
  | a => a

namespace Session

variable {s s' : Session} {env : Surroundings}

/-- All but the key of the service is the same. -/
structure Twins (s s' : Session) : Prop where
  pool : s.pool = s'.pool
  node : s.node = s'.node
  service : Option.Rel Service.Twins s.service s'.service

theorem nested_alike (h : s.Twins s') (henv : env.Blind) (b : Batch) (n : Node) :
    (s.nested env b n).Alike Reply.redact (s'.nested env b n) := by
  have hservice := h.service
  unfold nested
  generalize s.service = service at hservice
  generalize s'.service = service' at hservice
  cases hservice with
  | none => exact .refl _ _
  | some htwins => exact Service.batchSign_alike htwins henv b n

theorem checked_alike {t u : Traced (Except Rejection Unit)} (h : t.Alike (Except.map id) u) :
    (checked t).Alike Answer.redact (checked u) := by
  rcases h.error_or_ok with ⟨cause, ht, hu⟩ | ⟨_, _, ht, hu, -⟩
  · simp only [checked, ht, hu]
    exact ⟨rfl, h.node, by simp only [List.map_append, h.events]⟩
  · simp only [checked, ht, hu]
    exact ⟨rfl, h.node, h.events⟩

/-- **One step of twins is alike.** -/
theorem perform_alike (h : s.Twins s') (henv : env.Blind) (x : Step) :
    (s.perform env x).Alike Answer.redact (s'.perform env x) := by
  have hnested := nested_alike h henv
  cases x with
  | fetchCount epoch =>
    rw [perform, perform, ← h.node]
    exact (Node.fetchCount_alike hnested henv epoch s.node).map fun a b hab =>
      congrArg (fun v => (fetched v).redact) hab
  | verify d =>
    rw [perform, perform, ← h.node, ← h.pool]
    exact checked_alike (Node.verify_alike hnested henv s.pool d s.node)
  | verifyAssigned root commitment assigned slices =>
    rw [perform, perform, ← h.node, ← h.pool]
    exact .refl _ _
  | batch b place =>
    cases place with
    | none =>
      rw [perform, perform, ← h.node]
      exact .refl _ _
    | some signatures =>
      have hb := hnested b s.node
      rw [perform, perform, ← h.node]
      refine ⟨?_, hb.node, hb.events⟩
      simp only [Answer.redact, hb.value, hb.node]
  | _ =>
    simp only [perform, ← h.node]
    exact .refl _ _

theorem step_twins (h : s.Twins s') (henv : env.Blind) (x : Step) :
    (s.step env x).1.Twins (s'.step env x).1 :=
  ⟨h.pool, (perform_alike h henv x).node, h.service⟩

theorem run_alike {steps : List (Surroundings × Step)} (h : s.Twins s')
    (hsteps : ∀ e ∈ steps, e.1.Blind) :
    (s.run steps).1.Twins (s'.run steps).1 ∧
      (s.run steps).2.map (Prod.map Answer.redact (List.map Event.redact)) =
        (s'.run steps).2.map (Prod.map Answer.redact (List.map Event.redact)) := by
  induction steps generalizing s s' with
  | nil => exact ⟨h, rfl⟩
  | cons e steps ih =>
    obtain ⟨env, x⟩ := e
    obtain ⟨henv, hsteps⟩ := List.forall_mem_cons.1 hsteps
    have hstep := perform_alike h henv x
    obtain ⟨htwins, hrest⟩ := ih (step_twins h henv x) hsteps
    refine ⟨htwins, ?_⟩
    rw [run, run, List.map_cons, List.map_cons, hrest]
    exact congrArg (· :: _) (Prod.ext hstep.value hstep.events)

end Session

/-! ## Starting with different keys -/

/-- What a service that has been started has from its setup. -/
theorem Service.parts_of_start {setup : Setup} {hardware : Nat} {svc : Service} {a : Admission}
    (h : start setup hardware = .ok (svc, a)) :
    svc.payloadLimit = setup.payloadLimit ∧ svc.pool = .resolve setup.verifyThreads hardware ∧
      Admission.ofMax setup.maxOngoing = .ok a := by
  unfold start at h
  split at h
  · cases h
  · split at h
    · cases h
    · split at h
      · cases h
      · split at h
        · cases h
        · rename_i ha
          cases h
          exact ⟨rfl, rfl, ha⟩

namespace Session

/-- What a session that has been started with a service has from its setup. -/
theorem parts_of_start {workers hardware : Nat} {setup : Setup} {s : Session}
    {records : List LogRecord} (h : start workers (some setup) hardware = .ok (s, records)) :
    ∃ svc a, Service.start setup hardware = .ok (svc, a) ∧ Pool.ofWorkers workers = .ok s.pool ∧
      s.service = some svc ∧ s.node = .init a ∧ records = [Service.readyRecord a svc.pool] := by
  unfold start at h
  split at h
  · cases h
  · rename_i hpool
    simp only at h
    split at h
    · cases h
    · rename_i svc a hstart
      cases h
      exact ⟨svc, a, hstart, hpool, rfl, rfl, rfl⟩

/-- Nor does the log show the key when a session is started. -/
theorem twins_of_start {workers hardware : Nat} {setup : Setup} {k k' : Fr} {s s' : Session}
    {records records' : List LogRecord}
    (h : start workers (some { setup with key := some k }) hardware = .ok (s, records))
    (h' : start workers (some { setup with key := some k' }) hardware = .ok (s', records')) :
    s.Twins s' ∧ records = records' := by
  obtain ⟨svc, a, hstart, hpool, hservice, hnode, rfl⟩ := parts_of_start h
  obtain ⟨svc', a', hstart', hpool', hservice', hnode', rfl⟩ := parts_of_start h'
  obtain ⟨hlimit, hworkers, ha⟩ := Service.parts_of_start hstart
  obtain ⟨hlimit', hworkers', ha'⟩ := Service.parts_of_start hstart'
  cases ha.symm.trans ha'
  have htwins : svc.Twins svc' := ⟨hlimit.trans hlimit'.symm, hworkers.trans hworkers'.symm⟩
  refine ⟨⟨Except.ok.inj (hpool.symm.trans hpool'), hnode.trans hnode'.symm, ?_⟩, ?_⟩
  · rw [hservice, hservice']
    exact .some htwins
  · rw [htwins.pool]

/-- **The key shows in the bytes of signatures only.** Sessions started with different keys have all
but the key in common, and the same log. From then on, whatever steps are made on both, with the same
calls made by look-ups, they keep one node between them: tables of statuses, assignments, slices and
counts, look-ups made and calls in progress. Their answers and histories, with all statuses, texts and
log records, are the same once the bytes of signatures are blotted. -/
theorem run_redacted_eq :
    (∀ (workers hardware : Nat) (setup : Setup) (k k' : Fr) (s s' : Session)
      (records records' : List LogRecord),
      start workers (some { setup with key := some k }) hardware = .ok (s, records) →
      start workers (some { setup with key := some k' }) hardware = .ok (s', records') →
      s.Twins s' ∧ records = records') ∧
    ∀ (s s' : Session) (steps : List (Surroundings × Step)), s.Twins s' →
      (∀ e ∈ steps, e.1.Blind) →
      (s.run steps).1.node = (s'.run steps).1.node ∧
      (s.run steps).2.map (Prod.map Answer.redact (List.map Event.redact)) =
        (s'.run steps).2.map (Prod.map Answer.redact (List.map Event.redact)) := by
  refine ⟨fun workers hardware setup k k' s s' records records' => twins_of_start, ?_⟩
  intro s s' steps htwins hsteps
  obtain ⟨hlast, hshown⟩ := run_alike htwins hsteps
  exact ⟨hlast.node, hshown⟩

/-- With one key and with another, the slices of one blob are stored. The count comes from a look-up
that has a batch signed and goes by the status of the reply. -/
theorem run_redacted_eq_two_keys :
    let setup : Setup := ⟨none, 10, some 2, 64, []⟩
    let svc : Service := ⟨1, 64, ⟨2, by decide⟩, by decide⟩
    let svc' : Service := ⟨2, 64, ⟨2, by decide⟩, by decide⟩
    let s : Session := ⟨⟨1, by decide⟩, some svc, .init ⟨10, 0, by decide⟩⟩
    let s' : Session := ⟨⟨1, by decide⟩, some svc', .init ⟨10, 0, by decide⟩⟩
    let k : BlobKey := ⟨5, 2, .zero⟩
    let r : Request := ⟨5, 2, Bytes32.zero.toList,
      1 :: List.replicate 31 0 ++ 2 :: List.replicate 31 0, [[0, 0, 0, 0, 0, 0, 0, 7, 0, 0, 0, 0]]⟩
    let next (reply : Reply) : Lookup :=
      .answer (if reply.status.isOk then .ok 3 else .error (.chain "down"))
    let plain : Surroundings := ⟨fun _ _ => .answer (.ok 3), fun _ _ _ => .accepted, fun _ => []⟩
    let calling : Surroundings := { plain with lookup := fun _ _ => .call ⟨[], ""⟩ next }
    let steps : List (Surroundings × Step) := [(calling, .fetchCount 5),
      (plain, .setStatus k .uploaded), (plain, .setAssignment k.quorumKey [7]),
      (plain, .batch ⟨[r], ""⟩ (some []))]
    (∃ records, start 1 (some { setup with key := some 1 }) 4 = .ok (s, records) ∧
      start 1 (some { setup with key := some 2 }) 4 = .ok (s', records)) ∧
      (∀ e ∈ steps, e.1.Blind) ∧
      (s.run steps).1.node.store.slices.get? k = some [⟨7, []⟩] ∧
      (s'.run steps).1.node.store.slices.get? k = some [⟨7, []⟩] := by
  intro setup svc svc' s s' k r next plain calling steps
  obtain ⟨hstart, hrun⟩ := run_redacted_eq
  have hs : start 1 (some { setup with key := some 1 }) 4 = .ok (s, _) := rfl
  have hs' : start 1 (some { setup with key := some 2 }) 4 = .ok (s', _) := rfl
  obtain ⟨htwins, hrecords⟩ := hstart 1 4 setup 1 2 s s' _ _ hs hs'
  have hsteps : ∀ e ∈ steps, e.1.Blind := by
    have hplain : plain.Blind := fun _ _ => trivial
    have hcalling : calling.Blind := fun _ _ _ => ⟨rfl, trivial⟩
    simp only [steps, List.forall_mem_cons]
    exact ⟨hcalling, hplain, hplain, hplain, nofun⟩
  obtain ⟨hnode, -⟩ := hrun s s' steps htwins hsteps
  have hstored : (s.run steps).1.node.store.slices.get? k = some [⟨7, []⟩] := by
    let n : Node :=
      { Node.init ⟨10, 0, by decide⟩ with
        store := (Store.empty.setStatus k .uploaded).setAssignment k.quorumKey [7]
        counts := (∅ : Table UInt64 UInt64).insert 5 3
        lookups := 1 }
    have hpass : r.Passes svc.payloadLimit plain.check n.store (n.countOf fun _ _ => .ok 3)
        ⟨k, G1.generator, [⟨7, []⟩]⟩ :=
      { epoch := rfl
        quorum := rfl
        root := rfl
        commitment := Commitment.decode_generator
        slices := .cons rfl .nil
        uploaded := rfl
        seated := ⟨3, rfl, by decide⟩
        assigned := rfl
        proofs := fun _ _ => rfl }
    have hlast : (s.run steps).1.node = (svc.batchSign plain ⟨[r], ""⟩ n).node := rfl
    rw [hlast, Service.slices_of_passes (fun _ _ => rfl) (by decide) hpass nofun]
    rfl
  exact ⟨⟨_, hs, hrecords ▸ hs'⟩, hsteps, hstored, hnode ▸ hstored⟩

end Session

end BlobSigner
