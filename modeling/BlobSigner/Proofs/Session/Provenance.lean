import BlobSigner.Proofs.Batch.Origin
import BlobSigner.Proofs.Batch.Verdict
import BlobSigner.Session
/-!
# What a session persists

Along a run the table of slices is what the writes so far have made it (`slices_run`). In a run that
puts slices by batches alone, each of these writes goes back to a request that was verified and
signed before (`run_stores_vouched`), whatever else happens between, and within, the calls.
-/
namespace BlobSigner

/-! ## The table of slices -/

/-- What a history stores in an empty table. -/
def tableOf (es : List Event) : Table BlobKey (List Slice) := Table.insertAll ∅ (storedBy es)

theorem Table.mem_of_lastOf {κ ν : Type} [DecidableEq κ] {k : κ} {v : ν} {l : List (κ × ν)}
    (h : lastOf k l = some v) : (k, v) ∈ l := by
  induction l with
  | nil => cases h
  | cons e rest ih =>
    obtain ⟨k', v'⟩ := e
    rw [lastOf] at h
    cases hrest : lastOf k rest with
    | some w =>
      rw [hrest, Option.some_or] at h
      exact List.mem_cons_of_mem _ (ih (hrest.trans h))
    | none =>
      rw [hrest, Option.none_or] at h
      split at h
      · rename_i hk
        cases h
        exact hk ▸ List.mem_cons_self
      · cases h

theorem Event.eq_write_of_stored? {e : Event} {k : BlobKey} {slices : List Slice}
    (h : e.stored? = some (k, slices)) : e = .write k slices true := by
  unfold stored? at h
  split at h <;> cases h
  rfl

theorem Examines.slices_eq {n n' : Node} {es : List Event} (h : Examines n es n') :
    n'.store.slices = n.store.slices.insertAll (storedBy es) :=
  (Store.tables_of_putAll h.stores).2.2

/-- What the table holds for a blob was stored by one of the writes. -/
theorem occurs_of_tableOf {es : List Event} {k : BlobKey} {slices : List Slice}
    (h : (tableOf es).get? k = some slices) : ∃ before, Occurs es before (.write k slices true) := by
  rw [tableOf, Table.get?_insertAll, Table.get?_empty, Option.or_none] at h
  obtain ⟨e, he, hstored⟩ := List.mem_filterMap.1 (Table.mem_of_lastOf h)
  obtain ⟨before, after, rfl⟩ := List.append_of_mem he
  refine ⟨before, after, ?_⟩
  rw [← Event.eq_write_of_stored? hstored, List.append_assoc, List.singleton_append]

namespace Session

variable {s : Session} {env : Surroundings} {x : Step} {steps : List (Surroundings × Step)}

/-- All that happens in a run, in order. -/
def trace (s : Session) (steps : List (Surroundings × Step)) : List Event :=
  (s.run steps).2.flatMap Prod.snd

theorem trace_cons (s : Session) (env : Surroundings) (x : Step)
    (steps : List (Surroundings × Step)) :
    s.trace ((env, x) :: steps) = (s.perform env x).events ++ (s.step env x).1.trace steps :=
  rfl

theorem run_cons (s : Session) (env : Surroundings) (x : Step) (steps : List (Surroundings × Step)) :
    (s.run ((env, x) :: steps)).1 = ((s.step env x).1.run steps).1 :=
  rfl

/-- Batches that a look-up has signed keep to the rules of calls. -/
theorem keeps_nested {R : Node → List Event → Node → Prop} (s : Session) (hr : Rules env.Tells R)
    (b : Batch) (n : Node) : R n (s.nested env b n).events (s.nested env b n).node := by
  unfold nested
  cases s.service with
  | none => exact hr.nothing
  | some svc => exact hr.batchSignWithin svc n.admission.max b n

theorem examines_nested (s : Session) (env : Surroundings) (b : Batch) (n : Node) :
    Examines n (s.nested env b n).events (s.nested env b n).node :=
  s.keeps_nested (rules_examines env.Tells) b n

/-- A check that fails adds to the log, and nothing else. -/
theorem checked_logs (t : Traced (Except Rejection Unit)) :
    ∃ records : List LogRecord, (checked t).node = t.node ∧
      (checked t).events = t.events ++ records.map .log := by
  unfold checked
  split
  · exact ⟨[], rfl, (List.append_nil _).symm⟩
  · exact ⟨_, rfl, rfl⟩

theorem keeps_checked {R : Node → List Event → Node → Prop} {tells : UInt64 → UInt64 → Prop}
    (hr : Rules tells R) {t : Traced (Except Rejection Unit)} {n : Node}
    (h : R n t.events t.node) : R n (checked t).events (checked t).node := by
  obtain ⟨records, hnode, hevents⟩ := checked_logs t
  rw [hnode, hevents]
  exact hr.next h (hr.logs records)

theorem examines_checked {t : Traced (Except Rejection Unit)} {n : Node}
    (h : Examines n t.events t.node) : Examines n (checked t).events (checked t).node :=
  keeps_checked (rules_examines fun _ _ => True) h

/-- Whatever the step, the table changes by the writes that it shows. -/
theorem slices_perform (s : Session) (env : Surroundings) (x : Step) :
    (s.perform env x).node.store.slices =
      s.node.store.slices.insertAll (storedBy (s.perform env x).events) := by
  have hnested := s.examines_nested env
  cases x with
  | putSlices key slices =>
    rw [perform]
    cases hput : s.node.store.putSlices key slices with
    | error why => rfl
    | ok store =>
      obtain ⟨-, rfl⟩ := Store.putSlices_eq_ok_iff.1 hput
      rfl
  | fetchCount epoch => exact (Node.examines_fetchCount hnested env epoch s.node).slices_eq
  | gate key => exact (examines_checked (.readStatus key)).slices_eq
  | verify d => exact (examines_checked (Node.examines_verify hnested env s.pool d s.node)).slices_eq
  | verifyAssigned root commitment assigned slices =>
    exact (examines_checked (.checkSlices _)).slices_eq
  | batch b place =>
    cases place with
    | none => rfl
    | some signatures => exact (hnested b s.node).slices_eq
  | _ => rfl

theorem slices_run (s : Session) (steps : List (Surroundings × Step)) :
    (s.run steps).1.node.store.slices =
      s.node.store.slices.insertAll (storedBy (s.trace steps)) := by
  induction steps generalizing s with
  | nil => rfl
  | cons e steps ih =>
    obtain ⟨env, x⟩ := e
    have hstep : (s.step env x).1.node = (s.perform env x).node := rfl
    rw [run_cons, trace_cons, ih, hstep, slices_perform, storedBy_append, Table.insertAll_append]

/-! ## Requests that a session takes up -/

/-- A step has a batch signed on the node that it finds after some events: the step's own, or one of
the step's look-up. -/
inductive Calls (s : Session) (env : Surroundings) : Step → List Event → Batch → Node → Prop where
  | batch {b : Batch} {place : List Bytes} : Calls s env (.batch b (some place)) [] b s.node
  | fetchCount {epoch : UInt64} {es : List Event} {b : Batch} {n : Node} :
      s.node.Calls env (s.nested env) epoch es b n → Calls s env (.fetchCount epoch) es b n
  | verify {d : Decoded} {es : List Event} {b : Batch} {n : Node} :
      s.node.Calls env (s.nested env) d.key.epoch es b n → Calls s env (.verify d) es b n

/-- A run takes a request up, in the surroundings of the time, on the node that it finds after some
events. -/
inductive Takes (svc : Service) : Session → List (Surroundings × Step) → List Event →
    Surroundings → Request → Node → Prop where
  | now {s : Session} {env : Surroundings} {x : Step} {steps : List (Surroundings × Step)}
      {es es' : List Event} {b : Batch} {n m : Node} {r : Request} : s.service = some svc →
      s.Calls env x es b n → svc.Takes env b n es' r m →
      Takes svc s ((env, x) :: steps) (es ++ es') env r m
  | later {s : Session} {env env' : Surroundings} {x : Step} {steps : List (Surroundings × Step)}
      {es : List Event} {r : Request} {m : Node} : Takes svc (s.step env x).1 steps es env' r m →
      Takes svc s ((env, x) :: steps) ((s.perform env x).events ++ es) env' r m

theorem Calls.prefix_perform {es : List Event} {b : Batch} {n : Node} (h : s.Calls env x es b n) :
    es ++ (s.nested env b n).events <+: (s.perform env x).events := by
  cases h with
  | batch => exact List.prefix_rfl
  | fetchCount h => exact h.prefix_fetchCount
  | verify h =>
    obtain ⟨records, -, hevents⟩ := checked_logs (s.node.verify env (s.nested env) s.pool _)
    rw [perform, hevents]
    exact h.prefix_fetchCount.trans ((Node.prefix_verify s.pool _).trans (List.prefix_append ..))

theorem Calls.keeps {R : Node → List Event → Node → Prop} (hr : Rules env.Tells R)
    {es : List Event} {b : Batch} {n : Node} (h : s.Calls env x es b n) : R s.node es n := by
  cases h with
  | batch => exact hr.nothing
  | fetchCount h => exact h.keeps hr (s.keeps_nested hr)
  | verify h => exact h.keeps hr (s.keeps_nested hr)

theorem Calls.examines {es : List Event} {b : Batch} {n : Node} (h : s.Calls env x es b n) :
    Examines s.node es n :=
  h.keeps (rules_examines env.Tells)

section

variable {svc : Service} {es : List Event} {r : Request} {m : Node}

theorem nested_of_service (h : s.service = some svc) (env : Surroundings) :
    s.nested env = svc.batchSign env := by
  rw [nested, h]

/-- A request that is taken up is processed right then. -/
theorem Takes.prefix_trace (h : s.Takes svc steps es env r m) :
    es ++ (svc.process env (svc.batchSign env) r m).events <+: s.trace steps := by
  induction h with
  | now hservice hcalls htakes =>
    have hstep := hcalls.prefix_perform
    rw [nested_of_service hservice] at hstep
    rw [trace_cons, List.append_assoc]
    refine List.IsPrefix.trans ?_ (hstep.trans (List.prefix_append ..))
    exact (List.prefix_append_right_inj _).2 htakes.prefix_batchSign
  | later _ ih =>
    rw [trace_cons, List.append_assoc]
    exact (List.prefix_append_right_inj _).2 ih

/-- A request finds the table that the writes so far have made. -/
theorem Takes.slices_eq (h : s.Takes svc steps es env r m) :
    m.store.slices = s.node.store.slices.insertAll (storedBy es) := by
  induction h with
  | now _ hcalls htakes =>
    rw [storedBy_append, Table.insertAll_append, ← hcalls.examines.slices_eq]
    exact (Store.tables_of_putAll htakes.stores).2.2
  | @later s env _ x _ _ _ _ _ ih =>
    have hstep : (s.step env x).1.node = (s.perform env x).node := rfl
    rw [storedBy_append, Table.insertAll_append, ← slices_perform, ← hstep, ih]

end

/-! ## Where the writes of a run come from -/

section

variable {before : List Event} {k : BlobKey} {slices : List Slice} {stored : Bool}

theorem write_of_checked {t : Traced (Except Rejection Unit)}
    (h : Occurs (checked t).events before (.write k slices stored)) :
    Occurs t.events before (.write k slices stored) := by
  obtain ⟨records, -, hevents⟩ := checked_logs t
  rw [hevents] at h
  rcases h.cases_append with h | ⟨_, -, hlog⟩
  · exact h
  · exact absurd hlog.mem (by simp)

/-- But for slices that are put without a batch, a step writes nothing outside the batches that it has
signed. -/
theorem calls_of_write (hx : ∀ k slices, x ≠ .putSlices k slices)
    (h : Occurs (s.perform env x).events before (.write k slices stored)) :
    ∃ es b n before', s.Calls env x es b n ∧ before = es ++ before' ∧
      Occurs (s.nested env b n).events before' (.write k slices stored) := by
  cases x with
  | putSlices key slices => exact absurd rfl (hx key slices)
  | fetchCount epoch =>
    obtain ⟨es, b, n, before', hcalls, heq, hwrite⟩ := Node.calls_of_fetchCount h
    exact ⟨es, b, n, before', .fetchCount hcalls, heq, hwrite⟩
  | gate key => exact absurd (write_of_checked h).mem (by simp [Node.gate])
  | verify d =>
    obtain ⟨es, b, n, before', hcalls, heq, hwrite⟩ := Node.calls_of_verify (write_of_checked h)
    exact ⟨es, b, n, before', .verify hcalls, heq, hwrite⟩
  | verifyAssigned root commitment assigned slices =>
    exact absurd (write_of_checked h).mem (by simp [Node.checkSlices])
  | batch b place =>
    cases place with
    | none => exact absurd h.mem List.not_mem_nil
    | some signatures => exact ⟨[], b, s.node, before, .batch, rfl, h⟩
  | _ => exact absurd h.mem (by simp [perform, Traced.of])

theorem takes_of_write (hsteps : ∀ e ∈ steps, ∀ k slices, e.2 ≠ .putSlices k slices)
    (h : Occurs (s.trace steps) before (.write k slices stored)) :
    ∃ svc env es r m signed, s.Takes svc steps es env r m ∧
      (svc.process env (svc.batchSign env) r m).value = .ok signed ∧ signed.entry = (k, slices) ∧
      es ++ (svc.process env (svc.batchSign env) r m).events <+: before := by
  induction steps generalizing s before with
  | nil => exact absurd h.mem List.not_mem_nil
  | cons e steps ih =>
    obtain ⟨env, x⟩ := e
    obtain ⟨hx, hsteps⟩ := List.forall_mem_cons.1 hsteps
    rcases h.cases_append with hstep | ⟨rest, rfl, hrest⟩
    · obtain ⟨es, b, n, before', hcalls, rfl, hwrite⟩ := calls_of_write hx hstep
      cases hservice : s.service with
      | none =>
        rw [nested, hservice] at hwrite
        exact absurd hwrite.mem List.not_mem_nil
      | some svc =>
        rw [nested_of_service hservice] at hwrite
        obtain ⟨es', r, m, signed, htakes, hsigned, hentry, hprefix⟩ :=
          Service.takes_of_write hwrite
        refine ⟨svc, env, _, r, m, signed, .now hservice hcalls htakes, hsigned, hentry, ?_⟩
        rw [List.append_assoc]
        exact (List.prefix_append_right_inj _).2 hprefix
    · obtain ⟨svc, env', es, r, m, signed, htakes, hsigned, hentry, hprefix⟩ := ih hsteps hrest
      refine ⟨svc, env', _, r, m, signed, .later htakes, hsigned, hentry, ?_⟩
      rw [List.append_assoc]
      exact (List.prefix_append_right_inj _).2 hprefix

end

/-- **Nothing unverified is ever persisted.** Let a run begin with an empty table of slices and put
slices by batches alone. At every moment, at the end and wherever a request is taken up, the table is
what the writes so far have made it; and whatever it holds for a blob was written for a request that
had been taken up and processed before, and that vouches for these slices on the node that it found. -/
theorem run_stores_vouched (hempty : s.node.store.slices = ∅)
    (hsteps : ∀ e ∈ steps, ∀ k slices, e.2 ≠ .putSlices k slices) :
    (s.run steps).1.node.store.slices = tableOf (s.trace steps) ∧
    (∀ svc env es r m, s.Takes svc steps es env r m →
      es ++ (svc.process env (svc.batchSign env) r m).events <+: s.trace steps ∧
      m.store.slices = tableOf es) ∧
    ∀ es, es <+: s.trace steps → ∀ k slices, (tableOf es).get? k = some slices →
      ∃ svc env work r m before, s.Takes svc steps work env r m ∧ svc.Vouches env m r k slices ∧
        work ++ (svc.process env (svc.batchSign env) r m).events <+: before ∧
        before ++ [.write k slices true] <+: es := by
  refine ⟨?_, fun svc env es r m htakes => ⟨htakes.prefix_trace, ?_⟩, fun es hes k slices h => ?_⟩
  · rw [slices_run, hempty]
    rfl
  · rw [htakes.slices_eq, hempty]
    rfl
  · obtain ⟨before, hwrite⟩ := occurs_of_tableOf h
    obtain ⟨svc, env, work, r, m, signed, htakes, hsigned, hentry, hprefix⟩ :=
      takes_of_write hsteps (hwrite.trans hes)
    exact ⟨svc, env, work, r, m, before, htakes, Service.vouches_of_process hsigned hentry, hprefix,
      hwrite⟩

/-- The slice of a blob that was uploaded, assigned and then signed. -/
theorem run_stores_vouched_single :
    let svc : Service := ⟨1, 64, ⟨2, by decide⟩, by decide⟩
    let env : Surroundings := ⟨fun _ _ => .answer (.ok 3), fun _ _ _ => .accepted, fun _ => []⟩
    let k : BlobKey := ⟨5, 2, .zero⟩
    let r : Request := ⟨5, 2, Bytes32.zero.toList,
      1 :: List.replicate 31 0 ++ 2 :: List.replicate 31 0, [[0, 0, 0, 0, 0, 0, 0, 7, 0, 0, 0, 0]]⟩
    let s : Session := ⟨⟨1, by decide⟩, some svc, .init .idle⟩
    let steps : List (Surroundings × Step) := [(env, .setStatus k .uploaded),
      (env, .setAssignment k.quorumKey [7]), (env, .batch ⟨[r], ""⟩ (some []))]
    s.node.store.slices = ∅ ∧ (∀ e ∈ steps, ∀ k slices, e.2 ≠ .putSlices k slices) ∧
      (tableOf (s.trace steps)).get? k = some [⟨7, []⟩] ∧
      ∃ svc env work r m, s.Takes svc steps work env r m ∧ svc.Vouches env m r k [⟨7, []⟩] := by
  intro svc env k r s steps
  have hempty : s.node.store.slices = ∅ := rfl
  have hsteps : ∀ e ∈ steps, ∀ k slices, e.2 ≠ .putSlices k slices := by
    simp only [steps, List.forall_mem_cons]
    exact ⟨nofun, nofun, nofun, nofun⟩
  obtain ⟨htable, -, horigin⟩ := run_stores_vouched hempty hsteps
  have hstored : (tableOf (s.trace steps)).get? k = some [⟨7, []⟩] := by
    let store := (Store.empty.setStatus k .uploaded).setAssignment k.quorumKey [7]
    let n : Node := { Node.init .idle with store := store }
    have hpass : r.Passes svc.payloadLimit env.check n.store (n.countOf fun _ _ => .ok 3)
        ⟨k, G1.generator, [⟨7, []⟩]⟩ :=
      { epoch := rfl
        quorum := rfl
        root := rfl
        commitment := Commitment.decode_generator
        slices := .cons rfl .nil
        uploaded := rfl
        seated := ⟨3, rfl, by decide⟩
        assigned := rfl
        proofs := fun _ _ => rfl }
    have hlast : (s.run steps).1.node = (svc.batchSign env ⟨[r], ""⟩ n).node := rfl
    rw [← htable, hlast, Service.slices_of_passes (fun _ _ => rfl) (by decide) hpass nofun]
    rfl
  obtain ⟨svc', env', work, r', m, -, htakes, hvouches, -⟩ :=
    horigin _ List.prefix_rfl k _ hstored
  exact ⟨hempty, hsteps, hstored, svc', env', work, r', m, htakes, hvouches⟩

end Session

end BlobSigner
