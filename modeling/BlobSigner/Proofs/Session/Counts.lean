import BlobSigner.Proofs.Batch.Counts
import BlobSigner.Proofs.Session.Provenance
/-!
# The cache of quorum counts over a run

Whatever is asked of a session, the counts that it has of an epoch come from what was put there or
else from what a look-up of that epoch found (`run_counts`). The fetches of a step are its own, those
of all requests that are taken up in it, and those that a look-up of such a fetch makes directly, to
any depth (`Session.Fetches`); they share one cache, and none takes away or changes what another has
entered.
-/
namespace BlobSigner.Session

variable {s : Session} {env : Surroundings} {x : Step} {steps : List (Surroundings × Step)}
variable {es : List Event} {epoch : UInt64} {m : Node}

/-! ## The fetches of a step -/

/-- In a step, the count of an epoch is fetched on the node that the fetch finds after some events, with
this look-up if need be: by the step itself, for a request that is taken up in it, or by the look-up of
a fetch. -/
inductive Fetches (s : Session) (env : Surroundings) :
    Step → List Event → UInt64 → Lookup → Node → Prop where
  | fetchCount {epoch : UInt64} :
      Fetches s env (.fetchCount epoch) [] epoch (env.lookup s.node.lookups epoch) s.node
  | verify {d : Decoded} :
      Fetches s env (.verify d) [] d.key.epoch (env.lookup s.node.lookups d.key.epoch) s.node
  | request {svc : Service} {x : Step} {es es' : List Event} {b : Batch} {n m : Node} {r : Request}
      {d : Decoded} : s.service = some svc → s.Calls env x es b n → svc.Takes env b n es' r m →
      r.Awaited svc.payloadLimit m.store d →
      Fetches s env x (es ++ (es' ++ [.readStatus d.key (m.store.readStatus d.key)])) d.key.epoch
        (env.lookup m.lookups d.key.epoch) m
  | direct {x : Step} {es es' : List Event} {epoch epoch' : UInt64} {l inner : Lookup}
      {next : Except LookupError UInt64 → Lookup} {m m' : Node} : Fetches s env x es epoch l m →
      m.counts.get? epoch = none →
      l.Reaches (s.nested env) { m with lookups := m.lookups + 1 } es' (.fetch epoch' inner next) m' →
      Fetches s env x (es ++ .lookup epoch :: es') epoch' inner m'

theorem grows_nested (s : Session) (env : Surroundings) (b : Batch) (n : Node) :
    Grows env.Tells n (s.nested env b n).events (s.nested env b n).node :=
  s.keeps_nested (rules_grows env.Tells) b n

theorem counts_checked (t : Traced (Except Rejection Unit)) :
    (checked t).node.counts = t.node.counts := by
  obtain ⟨_, hnode, -⟩ := checked_logs t
  rw [hnode]

/-- What a call made in a step leaves known is known when the step ends. -/
theorem Calls.retains (hone : env.OneTable) {b : Batch} {n : Node} (h : s.Calls env x es b n) :
    (s.perform env x).node.Retains (s.nested env b n).node := by
  cases h with
  | batch => exact .of_eq rfl
  | fetchCount h => exact h.retains (s.grows_nested env) hone
  | verify h =>
    refine (Node.Retains.of_eq ?_).trans (h.retains (s.grows_nested env) hone)
    rw [perform, counts_checked, Node.counts_verify]

/-- The look-up of a fetch tells no more than those of the surroundings. -/
theorem Fetches.tells {l : Lookup} (h : s.Fetches env x es epoch l m) :
    ∀ epoch' count, l.Tells epoch epoch' count → env.Tells epoch' count := by
  induction h with
  | @direct _ _ _ epoch epoch' l _ _ _ _ _ _ hreaches ih =>
    intro epoch'' count hinner
    obtain ⟨own, hrest⟩ := hreaches.tells epoch
    exact ih epoch'' count (hrest (.inner hinner))
  | _ => exact fun _ _ h => ⟨_, _, h⟩

theorem Fetches.prefix_perform {l : Lookup} (h : s.Fetches env x es epoch l m) :
    es ++ (m.fetchBy (Node.consult (s.nested env) l) epoch).events <+: (s.perform env x).events := by
  induction h with
  | fetchCount => exact List.prefix_rfl
  | verify =>
    obtain ⟨records, -, hevents⟩ := checked_logs (s.node.verify env (s.nested env) s.pool _)
    rw [perform, hevents]
    exact (Node.prefix_verify s.pool _).trans (List.prefix_append ..)
  | @request svc x es es' b n m r d hservice hcalls htakes hawaited =>
    have hcall := hcalls.prefix_perform
    rw [nested_of_service hservice] at hcall ⊢
    have hprocess : .readStatus d.key (m.store.readStatus d.key) ::
        (m.fetchCount env (svc.batchSign env) d.key.epoch).events <+:
          (svc.process env (svc.batchSign env) r m).events :=
      Service.prefix_process_of_awaited hawaited
    simp only [List.append_assoc, List.singleton_append]
    exact ((List.prefix_append_right_inj _).2
      (((List.prefix_append_right_inj _).2 hprocess).trans htakes.prefix_batchSign)).trans hcall
  | direct _ hc hreaches ih =>
    rw [Node.events_fetchBy hc] at ih
    rw [List.append_assoc, List.cons_append]
    refine List.IsPrefix.trans ?_ ih
    refine (List.prefix_append_right_inj _).2 (List.cons_prefix_cons.2 ⟨rfl, ?_⟩)
    exact ((List.prefix_append_right_inj _).2 (List.prefix_append ..)).trans hreaches.prefix_consult

theorem Fetches.grows {l : Lookup} (h : s.Fetches env x es epoch l m) :
    Grows env.Tells s.node es m := by
  have hr := rules_grows env.Tells
  induction h with
  | fetchCount => exact .of_same rfl rfl rfl
  | verify => exact .of_same rfl rfl rfl
  | request _ hcalls htakes _ =>
    refine (hcalls.keeps hr).append (htakes.grows.append ?_)
    exact .of_same rfl rfl rfl
  | direct h hc hreaches ih =>
    exact ih.append (hr.ask hc (hreaches.keeps hr (s.grows_nested env) h.tells))

theorem Fetches.retains (hone : env.OneTable) {l : Lookup} (h : s.Fetches env x es epoch l m) :
    (s.perform env x).node.Retains (m.fetchBy (Node.consult (s.nested env) l) epoch).node := by
  have hnested := s.grows_nested env
  induction h with
  | fetchCount => exact .of_eq rfl
  | verify =>
    refine .of_eq ?_
    rw [perform, counts_checked, Node.counts_verify]
    rfl
  | request hservice hcalls htakes hawaited =>
    have hcall := hcalls.retains hone
    rw [nested_of_service hservice] at hcall ⊢
    refine hcall.trans ((htakes.retains hone).trans (.of_eq ?_))
    exact Service.counts_process hawaited
  | @direct _ _ _ epoch epoch' l inner next m m' h hc hreaches ih =>
    refine ih.trans ((Lookup.retains_fetchBy hone hnested h.tells hc).trans ?_)
    refine (hreaches.retains hone hnested h.tells).trans ?_
    obtain ⟨own, hrest⟩ := hreaches.tells epoch
    exact Node.retains_consult hnested
      (fun epoch'' count hnext => h.tells epoch'' count (hrest (.next _ hnext))) _

/-! ## What a step does to the cache -/

theorem grows_perform (hx : ∀ epoch count, x ≠ .putCount epoch count) :
    Grows env.Tells s.node (s.perform env x).events (s.perform env x).node := by
  have hr := rules_grows env.Tells
  have hnested := s.grows_nested env
  cases x with
  | putCount epoch count => exact absurd rfl (hx epoch count)
  | putSlices key slices =>
    rw [perform]
    cases s.node.store.putSlices key slices <;> exact .of_same rfl rfl rfl
  | fetchCount epoch => exact hr.fetchCount hnested epoch s.node
  | gate key => exact keeps_checked hr (hr.readStatus key)
  | verify d => exact keeps_checked hr (hr.verify hnested s.pool d s.node)
  | verifyAssigned root commitment assigned slices => exact keeps_checked hr (hr.checkSlices _)
  | batch b place =>
    cases place with
    | none => exact .of_same rfl rfl rfl
    | some signatures => exact hnested b s.node
  | _ => exact .of_same rfl rfl rfl

/-! ## The cache over a run -/

/-- The counts that are put into the cache, in order. -/
def puts (steps : List (Surroundings × Step)) : List (UInt64 × UInt64) :=
  steps.filterMap fun
    | (_, .putCount epoch count) => some (epoch, count)
    | _ => none

theorem puts_cons (env : Surroundings) (hx : ∀ epoch count, x ≠ .putCount epoch count)
    (steps : List (Surroundings × Step)) : puts ((env, x) :: steps) = puts steps := by
  cases x with
  | putCount epoch count => exact absurd rfl (hx epoch count)
  | _ => rfl

/-- What is in the cache after a run was put there last; or it was there before and nothing was put
there; or it was looked up. -/
inductive Entry (s : Session) (steps : List (Surroundings × Step)) (epoch : UInt64) :
    Option UInt64 → Prop where
  | put {count : UInt64} : Table.lastOf epoch (puts steps) = some count → Entry s steps epoch (some count)
  | kept {count : UInt64} : Table.lastOf epoch (puts steps) = none →
      s.node.counts.get? epoch = some count → Entry s steps epoch (some count)
  | learnt {count : UInt64} : Table.lastOf epoch (puts steps) = none →
      s.node.counts.get? epoch = none → epoch ∈ lookUps (s.trace steps) →
      (∃ e ∈ steps, e.1.Tells epoch count) → Entry s steps epoch (some count)
  | absent : Table.lastOf epoch (puts steps) = none →
      s.node.counts.get? epoch = none → Entry s steps epoch none

theorem lookUps_trace_cons (s : Session) (env : Surroundings) (x : Step)
    (steps : List (Surroundings × Step)) :
    lookUps (s.trace ((env, x) :: steps)) =
      lookUps (s.perform env x).events ++ lookUps ((s.step env x).1.trace steps) := by
  rw [trace_cons, lookUps_append]

theorem Entry.putCount {epoch' count : UInt64} {entry : Option UInt64}
    (h : (s.step env (.putCount epoch' count)).1.Entry steps epoch entry) :
    s.Entry ((env, .putCount epoch' count) :: steps) epoch entry := by
  have hnode : (s.step env (.putCount epoch' count)).1.node.counts.get? epoch =
      if epoch' = epoch then some count else s.node.counts.get? epoch := Node.get?_putCount ..
  have hlast : Table.lastOf epoch (puts ((env, .putCount epoch' count) :: steps)) =
      (Table.lastOf epoch (puts steps)).or (if epoch' = epoch then some count else none) := rfl
  by_cases heq : epoch' = epoch
  · rw [if_pos heq] at hnode hlast
    cases h with
    | put h => exact .put (by rw [hlast, h, Option.some_or])
    | kept h hc =>
      cases hnode.symm.trans hc
      exact .put (by rw [hlast, h, Option.none_or])
    | learnt _ hc _ _ => cases hnode.symm.trans hc
    | absent _ hc => cases hnode.symm.trans hc
  · rw [if_neg heq] at hnode hlast
    rw [Option.or_none] at hlast
    cases h with
    | put h => exact .put (hlast.trans h)
    | kept h hc => exact .kept (hlast.trans h) (hnode.symm.trans hc)
    | learnt h hc hmem htells =>
      obtain ⟨e, he, htells⟩ := htells
      exact .learnt (hlast.trans h) (hnode.symm.trans hc) hmem ⟨e, List.mem_cons_of_mem _ he, htells⟩
    | absent h hc => exact .absent (hlast.trans h) (hnode.symm.trans hc)

theorem Entry.perform {entry : Option UInt64} (hx : ∀ epoch count, x ≠ .putCount epoch count)
    (h : (s.step env x).1.Entry steps epoch entry) : s.Entry ((env, x) :: steps) epoch entry := by
  have hgrows : Grows env.Tells s.node (s.perform env x).events (s.step env x).1.node :=
    grows_perform hx
  have habsent : (s.step env x).1.node.counts.get? epoch = none → s.node.counts.get? epoch = none :=
    fun hc => Option.eq_none_iff_forall_ne_some.2 fun count hs => by
      rw [hgrows.retains epoch count hs] at hc
      cases hc
  cases h with
  | put h => exact .put (by rwa [puts_cons env hx])
  | @kept count h hc =>
    cases hs : s.node.counts.get? epoch with
    | some count' =>
      cases (hgrows.retains epoch count' hs).symm.trans hc
      exact .kept (by rwa [puts_cons env hx]) hs
    | none =>
      rcases hgrows.learnt epoch count hc with hold | ⟨hmem, htells⟩
      · rw [hs] at hold
        cases hold
      · refine .learnt (by rwa [puts_cons env hx]) hs ?_ ⟨_, List.mem_cons_self, htells⟩
        rw [lookUps_trace_cons]
        exact List.mem_append_left _ hmem
  | learnt h hc hmem htells =>
    obtain ⟨e, he, htells⟩ := htells
    refine .learnt (by rwa [puts_cons env hx]) (habsent hc) ?_ ⟨e, List.mem_cons_of_mem _ he, htells⟩
    rw [lookUps_trace_cons]
    exact List.mem_append_right _ hmem
  | absent h hc => exact .absent (by rwa [puts_cons env hx]) (habsent hc)

theorem entry_run (s : Session) (steps : List (Surroundings × Step)) (epoch : UInt64) :
    s.Entry steps epoch ((s.run steps).1.node.counts.get? epoch) := by
  induction steps generalizing s with
  | nil =>
    cases hc : s.node.counts.get? epoch with
    | none => exact hc ▸ .absent rfl hc
    | some count => exact hc ▸ .kept rfl hc
  | cons e steps ih =>
    obtain ⟨env, x⟩ := e
    rw [run_cons]
    by_cases hx : ∃ epoch count, x = .putCount epoch count
    · obtain ⟨epoch', count, rfl⟩ := hx
      exact (ih _).putCount
    · exact (ih _).perform fun epoch' count heq => hx ⟨epoch', count, heq⟩

theorem lookups_perform (s : Session) (env : Surroundings) (x : Step) :
    (s.perform env x).node.lookups = s.node.lookups + (lookUps (s.perform env x).events).length := by
  by_cases hx : ∃ epoch count, x = .putCount epoch count
  · obtain ⟨epoch, count, rfl⟩ := hx
    rfl
  · exact (grows_perform fun epoch count heq => hx ⟨epoch, count, heq⟩).lookups

theorem lookups_run (s : Session) (steps : List (Surroundings × Step)) :
    (s.run steps).1.node.lookups = s.node.lookups + (lookUps (s.trace steps)).length := by
  induction steps generalizing s with
  | nil => rfl
  | cons e steps ih =>
    obtain ⟨env, x⟩ := e
    have hstep : (s.step env x).1.node.lookups = _ := s.lookups_perform env x
    rw [run_cons, ih, hstep, lookUps_trace_cons, List.length_append, Nat.add_assoc]

/-- **The cache of quorum counts over a run** in which, step by step, look-ups may fail or tell
something else, but never two things of one epoch in one step.

A fetch does what it would do alone, whatever its look-up does in between that makes the node grow, be
it batches that are signed or fetches from the same cache: a known count is returned, and there is no
look-up; else there is one of its own, whose answer is returned and entered, or whose failure enters
nothing. Putting a count sets that entry. Along every other step the node grows, up to each fetch in
it, at whatever depth, in the fetch and from there to the end of the step. So an entry is what was put
there last, or else it stays as it was, and where there was none it is what a look-up told. -/
theorem run_counts (hone : ∀ e ∈ steps, e.1.OneTable) :
    (∀ e ∈ steps, ∀ nested : Batch → Node → Traced Reply,
      (∀ b n, Grows e.1.Tells n (nested b n).events (nested b n).node) → ∀ epoch n,
        let f := n.fetchCount e.1 nested epoch
        (e.1.lookup n.lookups epoch).Fetches nested epoch n f ∧ Grows e.1.Tells n f.events f.node) ∧
    (∀ before env x after, steps = before ++ (env, x) :: after →
      let s' := (s.run before).1
      let t := s'.perform env x
      (∀ epoch count, x = .putCount epoch count → t = .of .done (s'.node.putCount epoch count)) ∧
      ((∀ epoch count, x ≠ .putCount epoch count) → Grows env.Tells s'.node t.events t.node) ∧
      ∀ es epoch l m, s'.Fetches env x es epoch l m →
        let f := m.fetchBy (Node.consult (s'.nested env) l) epoch
        l.Fetches (s'.nested env) epoch m f ∧ es ++ f.events <+: t.events ∧
          Grows env.Tells s'.node es m ∧ Grows env.Tells m f.events f.node ∧
          t.node.Retains f.node) ∧
    (∀ epoch, s.Entry steps epoch ((s.run steps).1.node.counts.get? epoch)) ∧
    (s.run steps).1.node.lookups = s.node.lookups + (lookUps (s.trace steps)).length := by
  refine ⟨fun e he nested hnested epoch n => ?_, fun before env x after heq => ?_, s.entry_run steps,
    s.lookups_run steps⟩
  · exact ⟨Lookup.fetches_fetchBy (hone e he) hnested (fun _ _ h => ⟨_, _, h⟩) n,
      (rules_grows e.1.Tells).fetchCount hnested epoch n⟩
  · have henv : env.OneTable := hone (env, x) (heq ▸ List.mem_append_right _ List.mem_cons_self)
    intro s' t
    refine ⟨?_, grows_perform, fun es epoch l m h => ?_⟩
    · rintro epoch count rfl
      rfl
    · have hnested := s'.grows_nested env
      have hr := rules_grows env.Tells
      have hfetch := hr.fetchBy (hr.consult hnested h.tells)
        (fun _ count hv => h.tells epoch count (Node.tells_of_consult hv epoch)) m
      exact ⟨Lookup.fetches_fetchBy henv hnested h.tells m, h.prefix_perform, h.grows, hfetch,
        h.retains henv⟩

/-- A look-up that fetches the count of its own epoch, and then has a batch signed whose request needs
that count: it is entered by the inner fetch, then once more by the outer one. -/
theorem run_counts_reentrant :
    let svc : Service := ⟨1, 64, ⟨2, by decide⟩, by decide⟩
    let k : BlobKey := ⟨5, 2, .zero⟩
    let r : Request := ⟨5, 2, Bytes32.zero.toList,
      1 :: List.replicate 31 0 ++ 2 :: List.replicate 31 0, [[0, 0, 0, 0, 0, 0, 0, 7, 0, 0, 0, 0]]⟩
    let told : Lookup := .answer (.ok 3)
    let env : Surroundings := ⟨fun _ epoch => .fetch epoch told fun _ => .call ⟨[r], ""⟩ fun _ => told,
      fun _ _ _ => .accepted, fun _ => []⟩
    let s : Session := ⟨⟨1, by decide⟩, some svc, .init .idle⟩
    let steps : List (Surroundings × Step) := [(env, .setStatus k .uploaded), (env, .putCount 6 1),
      (env, .fetchCount 5)]
    (∀ e ∈ steps, e.1.OneTable) ∧ (s.run steps).1.node.counts.get? 6 = some 1 ∧
      (s.run steps).1.node.counts.get? 5 = some 3 := by
  intro svc k r told env s steps
  have hanswer : ∀ own epoch count, told.Tells own epoch count → count = 3 := by
    intro own epoch count (h : Lookup.Tells (.answer (.ok 3)) own epoch count)
    cases h
    rfl
  have htells : ∀ epoch count, env.Tells epoch count → count = 3 := by
    rintro epoch count ⟨number, own, h⟩
    cases h with
    | inner h => exact hanswer _ _ _ h
    | next _ h =>
      cases h with
      | call _ h => exact hanswer _ _ _ h
  have hone : ∀ e ∈ steps, e.1.OneTable := by
    have henv : env.OneTable := fun epoch count count' h h' =>
      (htells epoch count h).trans (htells epoch count' h').symm
    simp only [steps, List.forall_mem_cons]
    exact ⟨henv, henv, henv, nofun⟩
  obtain ⟨-, hsteps, hentry, -⟩ := run_counts (s := s) hone
  have hput : ∀ entry, s.Entry steps 6 entry → entry = some 1 := by
    have hlast : Table.lastOf 6 (puts steps) = some 1 := rfl
    intro entry h
    cases h with
    | put h => exact h.symm.trans hlast
    | kept h _ => cases h.symm.trans hlast
    | learnt h _ _ _ => cases h.symm.trans hlast
    | absent h _ => cases h.symm.trans hlast
  refine ⟨hone, hput _ (hentry 6), ?_⟩
  let before := steps.take 2
  let m := (s.run before).1.node
  obtain ⟨-, -, hfetches⟩ := hsteps before env (.fetchCount 5) [] rfl
  -- what the inner fetch has entered is there to the end of the step
  have hc : m.counts.get? 5 = none := rfl
  obtain ⟨-, -, -, -, hretains⟩ :=
    hfetches _ 5 told { m with lookups := m.lookups + 1 } (.direct .fetchCount hc .here)
  refine hretains 5 3 ?_
  have hc' : ({ m with lookups := m.lookups + 1 } : Node).counts.get? 5 = none := rfl
  rw [Node.fetchBy_of_learnt hc' rfl, Node.get?_putCount, if_pos rfl]

end BlobSigner.Session
