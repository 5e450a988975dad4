import BlobSigner.Proofs.Batch.Origin
/-!
# What a node knows of the chain

A node keeps the counts that it has looked up. It looks up only what it does not know, and between
that check and the entry of the answer the look-up may have batches signed, whose requests look up
counts in their turn, the same one included. As long as the chain tells one count for each epoch, no
entry is ever lost or changed by this (`Grows`, `Service.Takes.retains`), and each fetch does what it
would do alone (`Node.fetches_fetchCount`).
-/
namespace BlobSigner

variable {n m n' : Node} {es es' : List Event} {tells : UInt64 → UInt64 → Prop}

/-! ## Look-ups in a history -/

def Event.lookedUp? : Event → Option UInt64
  | .lookup epoch => some epoch
  | _ => none

/-- The epochs that are looked up in a history, in order. -/
def lookUps (es : List Event) : List UInt64 := es.filterMap Event.lookedUp?

theorem lookUps_append (es es' : List Event) : lookUps (es ++ es') = lookUps es ++ lookUps es' :=
  List.filterMap_append

@[simp] theorem lookUps_nil : lookUps [] = [] := rfl

@[simp] theorem lookUps_lookup (epoch : UInt64) (es : List Event) :
    lookUps (.lookup epoch :: es) = epoch :: lookUps es := rfl

@[simp] theorem lookUps_enter (k : Nat) (es : List Event) :
    lookUps (.enter k :: es) = lookUps es := rfl

@[simp] theorem lookUps_leave (k : Nat) (es : List Event) :
    lookUps (.leave k :: es) = lookUps es := rfl

theorem lookUps_checkSlices (calls : List SliceCall) : lookUps (calls.map .checkSlice) = [] := by
  rw [lookUps, List.filterMap_map]
  exact List.filterMap_eq_nil_iff.2 fun _ _ => rfl

theorem lookUps_final (h : ∀ e ∈ es, e.Final) : lookUps es = [] := by
  refine List.filterMap_eq_nil_iff.2 fun e he => ?_
  cases e with
  | lookup epoch => exact absurd (h _ he) id
  | _ => rfl

/-! ## Knowing more -/

namespace Node

/-- All that `m` knows is known, with the same counts. -/
def Retains (n m : Node) : Prop :=
  ∀ epoch count, m.counts.get? epoch = some count → n.counts.get? epoch = some count

theorem Retains.of_eq (h : n.counts = m.counts) : n.Retains m := fun epoch count hm => by rwa [h]

theorem Retains.trans (h : n'.Retains m) (h' : m.Retains n) : n'.Retains n :=
  fun epoch count hn => h epoch count (h' epoch count hn)

theorem get?_putCount (n : Node) (epoch count epoch' : UInt64) :
    (n.putCount epoch count).counts.get? epoch' =
      if epoch = epoch' then some count else n.counts.get? epoch' :=
  Table.get?_insert ..

/-- An entry made where there is none, or again, changes no other and none that is there. -/
theorem retains_putCount {epoch count : UInt64}
    (h : n.counts.get? epoch = none ∨ n.counts.get? epoch = some count) :
    (n.putCount epoch count).Retains n := by
  intro epoch' count' hn
  rw [get?_putCount]
  split
  · rename_i heq
    subst heq
    rcases h with h | h
    · rw [h] at hn
      cases hn
    · rw [← h, hn]
  · exact hn

end Node

/-- Along a history the node forgets nothing, it knows more only of what was looked up, and counts its
look-ups. -/
structure Grows (tells : UInt64 → UInt64 → Prop) (n : Node) (es : List Event) (n' : Node) : Prop where
  retains : n'.Retains n
  learnt : ∀ epoch count, n'.counts.get? epoch = some count →
    n.counts.get? epoch = some count ∨ (epoch ∈ lookUps es ∧ tells epoch count)
  lookups : n'.lookups = n.lookups + (lookUps es).length

namespace Grows

theorem of_same (hcounts : n'.counts = n.counts) (hlookups : n'.lookups = n.lookups)
    (hes : lookUps es = []) : Grows tells n es n' where
  retains := .of_eq hcounts
  learnt epoch count h := Or.inl (by rwa [hcounts] at h)
  lookups := by rw [hes, hlookups]; rfl

theorem append (h : Grows tells n es m) (h' : Grows tells m es' n') :
    Grows tells n (es ++ es') n' where
  retains := h'.retains.trans h.retains
  learnt epoch count hn := by
    rw [lookUps_append, List.mem_append]
    rcases h'.learnt epoch count hn with hm | ⟨hmem, htells⟩
    · exact (h.learnt epoch count hm).imp_right fun ⟨hmem, htells⟩ => ⟨Or.inl hmem, htells⟩
    · exact Or.inr ⟨Or.inr hmem, htells⟩
  lookups := by rw [lookUps_append, List.length_append, h'.lookups, h.lookups, Nat.add_assoc]

theorem ask {epoch : UInt64} (h : Grows tells { n with lookups := n.lookups + 1 } es n') :
    Grows tells n (.lookup epoch :: es) n' where
  retains := h.retains
  learnt epoch' count hn := (h.learnt epoch' count hn).imp_right fun ⟨hmem, htells⟩ =>
    ⟨List.mem_cons_of_mem _ hmem, htells⟩
  lookups := by
    rw [h.lookups, lookUps_lookup, List.length_cons]
    simp only
    omega

/-- What is entered in the end was not known in the beginning. -/
theorem learn {epoch count : UInt64} (htells : tells epoch count) (hc : n.counts.get? epoch = none)
    (h : Grows tells { n with lookups := n.lookups + 1 } es n') :
    Grows tells n (.lookup epoch :: es) (n'.putCount epoch count) where
  retains epoch' count' hn := by
    have hne : epoch ≠ epoch' := fun heq => by simp [← heq, hc] at hn
    rw [Node.get?_putCount, if_neg hne]
    exact h.retains epoch' count' hn
  learnt epoch' count' hn := by
    rw [Node.get?_putCount] at hn
    split at hn
    · rename_i heq
      cases hn
      subst heq
      exact Or.inr ⟨List.mem_cons_self, htells⟩
    · exact h.ask.learnt epoch' count' hn
  lookups := h.ask.lookups

/-- What a fetch may enter that was not known when it began. -/
theorem absent_or_told {epoch count : UInt64} (h : Grows tells n es n')
    (hone : ∀ count', tells epoch count' → count' = count) (hc : n.counts.get? epoch = none) :
    n'.counts.get? epoch = none ∨ n'.counts.get? epoch = some count := by
  cases hn : n'.counts.get? epoch with
  | none => exact Or.inl rfl
  | some count' =>
    rcases h.learnt epoch count' hn with hold | ⟨-, htells⟩
    · rw [hc] at hold
      cases hold
    · exact Or.inr (congrArg some (hone count' htells))

end Grows

/-- Writing leaves the counts alone. -/
theorem Writes.counts_eq (h : Writes n es n') : n'.counts = n.counts ∧ n'.lookups = n.lookups := by
  induction h with
  | done _ => exact ⟨rfl, rfl⟩
  | stored _ _ ih => exact ih
  | failed _ _ => exact ⟨rfl, rfl⟩

theorem Writes.grows (h : Writes n es n') : Grows tells n es n' :=
  .of_same h.counts_eq.1 h.counts_eq.2 (lookUps_final h.final)

/-- **Whatever happens in a call, the node grows.** -/
theorem rules_grows (tells : UInt64 → UInt64 → Prop) : Rules tells (Grows tells) where
  nothing := .of_same rfl rfl rfl
  next := .append
  log _ := .of_same rfl rfl rfl
  readStatus _ := .of_same rfl rfl rfl
  readAssignment _ := .of_same rfl rfl rfl
  ask _ h := h.ask
  learn := .learn
  checkSlices calls := .of_same rfl rfl (lookUps_checkSlices calls)
  call {n m n' e w} _ he hw := by
    have hwork : Grows tells n.enter (e ++ w) n' := he.append hw.grows
    have hes : lookUps (.enter (n.admission.ongoing + 1) :: (e ++ w) ++
        [.leave n'.release.admission.ongoing]) = lookUps (e ++ w) := by
      rw [List.cons_append, lookUps_enter, lookUps_append, lookUps_leave, lookUps_nil,
        List.append_nil]
    exact ⟨hwork.retains, fun epoch count hn => hes ▸ hwork.learnt epoch count hn,
      hes ▸ hwork.lookups⟩
  answered _ := .of_same rfl rfl rfl

/-- A node has made the look-ups that its history shows. -/
theorem Examines.lookups_eq (h : Examines n es n') :
    n'.lookups = n.lookups + (lookUps es).length :=
  ((rules_grows fun _ _ => True).of_examines h).lookups

/-! ## A single fetch -/

/-- Each epoch has one count that its look-ups can come to. -/
def Surroundings.OneTable (env : Surroundings) : Prop :=
  ∀ epoch count count', env.Tells epoch count → env.Tells epoch count' → count = count'

section

variable (nested : Batch → Node → Traced Reply)

mutual

/-- The look-up makes its calls and its fetches one after the other, each on the node that the one
before it leaves, and ends with an answer. -/
inductive Lookup.Runs : Lookup → Node → List Event → Except LookupError UInt64 → Node → Prop where
  | answer {result : Except LookupError UInt64} {n : Node} : Runs (.answer result) n [] result n
  | call {b : Batch} {next : Reply → Lookup} {n n' : Node} {es : List Event}
      {result : Except LookupError UInt64} :
      Runs (next (nested b n).value) (nested b n).node es result n' →
      Runs (.call b next) n ((nested b n).answering ++ es) result n'
  | fetch {epoch : UInt64} {inner : Lookup} {next : Except LookupError UInt64 → Lookup}
      {n n' : Node} {t : Traced (Except LookupError UInt64)} {es : List Event}
      {result : Except LookupError UInt64} :
      Lookup.Fetches inner epoch n t → Runs (next t.value) t.node es result n' →
      Runs (.fetch epoch inner next) n (t.events ++ es) result n'

/-- How the count of an epoch is fetched, with this look-up if need be: it is known; or there is the
one look-up, besides those of the calls and fetches that it makes, and either it fails and the node is
left as these leave it, or its answer is entered, where these have made no other entry. -/
inductive Lookup.Fetches :
    Lookup → UInt64 → Node → Traced (Except LookupError UInt64) → Prop where
  | known {l : Lookup} {epoch count : UInt64} {n : Node} : n.counts.get? epoch = some count →
      Fetches l epoch n (.of (.ok count) n)
  | failed {l : Lookup} {epoch : UInt64} {n m : Node} {es : List Event} {e : LookupError} :
      n.counts.get? epoch = none →
      Lookup.Runs l { n with lookups := n.lookups + 1 } es (.error e) m →
      Fetches l epoch n ⟨.error e, m, .lookup epoch :: es⟩
  | learnt {l : Lookup} {epoch count : UInt64} {n m : Node} {es : List Event} :
      n.counts.get? epoch = none →
      Lookup.Runs l { n with lookups := n.lookups + 1 } es (.ok count) m →
      (m.counts.get? epoch = none ∨ m.counts.get? epoch = some count) →
      Fetches l epoch n ⟨.ok count, m.putCount epoch count, .lookup epoch :: es⟩

end

end

section

variable {nested : Batch → Node → Traced Reply} {l : Lookup} {epoch : UInt64} {b : Batch}
  (hone : ∀ epoch count count', tells epoch count → tells epoch count' → count = count')
  (hnested : ∀ b n, Grows tells n (nested b n).events (nested b n).node)

include hnested

/-- What is known when a look-up begins is known when it ends. -/
theorem Node.retains_consult {own : UInt64}
    (hl : ∀ epoch count, l.Tells own epoch count → tells epoch count) (n : Node) :
    (consult nested l n).node.Retains n :=
  ((rules_grows tells).consult hnested hl n).retains

include hone

/-- The calls and fetches that a look-up makes have entered nothing else under its own epoch. -/
theorem Lookup.absent_or_told (hl : ∀ epoch' count, l.Tells epoch epoch' count → tells epoch' count)
    {count : UInt64} (hc : n.counts.get? epoch = none)
    (hv : (Node.consult nested l { n with lookups := n.lookups + 1 }).value = .ok count) :
    (Node.consult nested l { n with lookups := n.lookups + 1 }).node.counts.get? epoch = none ∨
      (Node.consult nested l { n with lookups := n.lookups + 1 }).node.counts.get? epoch =
        some count := by
  have hgrows := (rules_grows tells).consult hnested hl { n with lookups := n.lookups + 1 }
  have htells : tells epoch count := hl epoch count (Node.tells_of_consult hv epoch)
  exact hgrows.absent_or_told (fun count' h => hone epoch count' count h htells) hc

theorem Lookup.fetches_of_runs
    (hl : ∀ epoch' count, l.Tells epoch epoch' count → tells epoch' count)
    (hruns : ∀ n, l.Runs nested n (Node.consult nested l n).events (Node.consult nested l n).value
      (Node.consult nested l n).node) (n : Node) :
    l.Fetches nested epoch n (n.fetchBy (Node.consult nested l) epoch) := by
  cases hc : n.counts.get? epoch with
  | some count =>
    rw [Node.fetchBy_of_known hc]
    exact .known hc
  | none =>
    have hasked := hruns { n with lookups := n.lookups + 1 }
    cases hv : (Node.consult nested l { n with lookups := n.lookups + 1 }).value with
    | error e =>
      rw [hv] at hasked
      rw [Node.fetchBy_of_failed hc hv]
      exact .failed hc hasked
    | ok count =>
      rw [hv] at hasked
      rw [Node.fetchBy_of_learnt hc hv]
      exact .learnt hc hasked (absent_or_told hone hnested hl hc hv)

theorem Lookup.runs_consult {own : UInt64}
    (hl : ∀ epoch count, l.Tells own epoch count → tells epoch count) (n : Node) :
    l.Runs nested n (Node.consult nested l n).events (Node.consult nested l n).value
      (Node.consult nested l n).node := by
  -- by induction on the look-up: the look-ups within it, at whatever depth, are parts of it
  induction l generalizing own n with
  | answer result => exact .answer
  | call b next ih => exact .call (ih _ (fun epoch count h => hl epoch count (.call _ h)) _)
  | fetch epoch inner next ih ih' =>
    have hinner : ∀ epoch' count, inner.Tells epoch epoch' count → tells epoch' count :=
      fun epoch' count h => hl epoch' count (.inner h)
    exact .fetch (fetches_of_runs hone hnested hinner (ih hinner) n)
      (ih' _ (fun epoch count h => hl epoch count (.next _ h)) _)

/-- **How a count is fetched**, whatever batches its look-up has signed and whatever it fetches in its
turn. -/
theorem Lookup.fetches_fetchBy
    (hl : ∀ epoch' count, l.Tells epoch epoch' count → tells epoch' count) (n : Node) :
    l.Fetches nested epoch n (n.fetchBy (Node.consult nested l) epoch) :=
  fetches_of_runs hone hnested hl (runs_consult hone hnested hl) n

/-! ## From a moment to the end -/

/-- What a look-up leaves known is known when its answer has been entered. -/
theorem Lookup.retains_fetchBy
    (hl : ∀ epoch' count, l.Tells epoch epoch' count → tells epoch' count)
    (hc : n.counts.get? epoch = none) :
    (n.fetchBy (Node.consult nested l) epoch).node.Retains
      (Node.consult nested l { n with lookups := n.lookups + 1 }).node := by
  cases hv : (Node.consult nested l { n with lookups := n.lookups + 1 }).value with
  | error e =>
    rw [Node.fetchBy_of_failed hc hv]
    exact .of_eq rfl
  | ok count =>
    rw [Node.fetchBy_of_learnt hc hv]
    exact Node.retains_putCount (absent_or_told hone hnested hl hc hv)

/-- What is known when a part of a look-up has been done is known at the end of the look-up. -/
theorem Lookup.Reaches.retains {own : UInt64} {rest : Lookup} (h : l.Reaches nested n es rest m)
    (hl : ∀ epoch count, l.Tells own epoch count → tells epoch count) :
    (Node.consult nested l n).node.Retains (Node.consult nested rest m).node := by
  induction h generalizing own with
  | here => exact .of_eq rfl
  | replied _ ih => exact ih fun epoch count h => hl epoch count (.call _ h)
  | @inner epoch inner next n _ _ _ hc _ ih =>
    have hinner : ∀ epoch' count, inner.Tells epoch epoch' count → tells epoch' count :=
      fun epoch' count h => hl epoch' count (.inner h)
    let t := n.fetchBy (Node.consult nested inner) epoch
    have hnext : (Node.consult nested (next t.value) t.node).node.Retains t.node :=
      Node.retains_consult hnested (fun epoch' count h => hl epoch' count (.next _ h)) t.node
    exact hnext.trans ((retains_fetchBy hone hnested hinner hc).trans (ih hinner))
  | fetched _ ih => exact ih fun epoch count h => hl epoch count (.next _ h)

/-- What is known after a call that a look-up makes is known at the end of the look-up. -/
theorem Lookup.Calls.retains {own : UInt64} (h : l.Calls nested n es b m)
    (hl : ∀ epoch count, l.Tells own epoch count → tells epoch count) :
    (Node.consult nested l n).node.Retains (nested b m).node := by
  obtain ⟨next, hreaches⟩ := h
  obtain ⟨own', hrest⟩ := hreaches.tells own
  refine (hreaches.retains hone hnested hl).trans ?_
  exact Node.retains_consult hnested (fun epoch count h => hl epoch count (hrest (.call _ h))) _

end

section

variable {env : Surroundings} {nested : Batch → Node → Traced Reply} {epoch : UInt64} {b : Batch}

section

variable (hnested : ∀ b n, Grows env.Tells n (nested b n).events (nested b n).node)

include hnested

theorem Node.Calls.retains (hone : env.OneTable) (h : n.Calls env nested epoch es b m) :
    (n.fetchCount env nested epoch).node.Retains (nested b m).node := by
  obtain ⟨hc, hcalls⟩ := h
  exact (Lookup.retains_fetchBy hone hnested (fun _ _ h => ⟨_, _, h⟩) hc).trans
    (hcalls.retains hone hnested fun _ _ h => ⟨_, _, h⟩)

end

/-- Stages that leave the counts alone. -/
theorem Traced.counts_andThen {α β ε : Type} {t : Traced (Except ε α)}
    {next : α → Node → Traced (Except ε β)} (h : ∀ a m, (next a m).node.counts = m.counts) :
    (t.andThen next).node.counts = t.node.counts := by
  cases hv : t.value with
  | error e => rw [andThen_of_error hv]
  | ok a => rw [andThen_of_ok hv, node_after, h]

/-- The counts that a check leaves are those that its fetch leaves. -/
theorem Node.counts_verify (pool : Pool) (d : Decoded) :
    (n.verify env nested pool d).node.counts = (n.fetchCount env nested d.key.epoch).node.counts := by
  refine Traced.counts_andThen fun count m => ?_
  refine Traced.counts_andThen fun _ m => ?_
  exact Traced.counts_andThen fun assigned m => rfl

namespace Service

variable {svc : Service} {r : Request} {i : Nat} {earlier rest : List Request} {signed : List Signed}

theorem counts_process {d : Decoded} (h : r.Awaited svc.payloadLimit n.store d) :
    (svc.process env nested r n).node.counts = (n.fetchCount env nested d.key.epoch).node.counts := by
  rw [process_of_awaited env nested h, Traced.node_after, ← Node.counts_verify svc.pool d]
  exact Traced.counts_andThen fun _ _ => rfl

/-- What is known once a request has been processed is known when all have been. -/
theorem retains_processAll (hnested : ∀ b n, Grows env.Tells n (nested b n).events (nested b n).node)
    (h : (svc.processAll env nested i earlier n).value = .ok signed) :
    (svc.processAll env nested i (earlier ++ r :: rest) n).node.Retains
      (svc.process env nested r (svc.processAll env nested i earlier n).node).node := by
  induction earlier generalizing i n signed with
  | nil =>
    rw [List.nil_append]
    cases hv : (svc.process env nested r n).value with
    | error cause =>
      rw [processAll_cons_of_error hv]
      exact .of_eq rfl
    | ok s =>
      rw [processAll_cons_of_ok hv]
      exact ((rules_grows env.Tells).processAll hnested svc (i + 1) rest _).retains
  | cons r' earlier ih =>
    obtain ⟨s, later, hr', hlater, rfl⟩ := exists_of_processAll_cons h
    rw [List.cons_append, processAll_cons_of_ok hr', processAll_cons_of_ok hr']
    exact ih hlater

theorem grows_batchSign (svc : Service) (env : Surroundings) (b : Batch) (n : Node) :
    Grows env.Tells n (svc.batchSign env b n).events (svc.batchSign env b n).node :=
  (rules_grows env.Tells).batchSignWithin svc n.admission.max b n

/-- The counts that an admitted call leaves are those from before its writes. -/
theorem counts_admitted (b : Batch) :
    (svc.admitted env nested b n).node.counts =
      (svc.processAll env nested 0 b.requests n).node.counts := by
  refine Traced.counts_andThen fun signed m => ?_
  rw [Traced.counts_andThen fun _ _ => rfl]
  exact (writes_commit 0 signed.length signed m).counts_eq.1

/-- What a request finds known was known before the call, or was looked up since. -/
theorem Takes.grows {b : Batch} (h : svc.Takes env b n es r m) : Grows env.Tells n es m := by
  induction h with
  | @own b n earlier rest r signed _ _ _ =>
    have hstart : Grows env.Tells n [.enter (n.admission.ongoing + 1), .log (receivedRecord b)]
        n.enter := .of_same rfl rfl rfl
    exact hstart.append
      ((rules_grows env.Tells).processAll (grows_batchSign svc env) svc 0 earlier n.enter)
  | @nested b b' n m n' m' es es' es'' r r' d _ _ hcalls _ ih ih' =>
    have hread : Grows env.Tells m [.readStatus d.key (m.store.readStatus d.key)] m :=
      .of_same rfl rfl rfl
    have hcall := hcalls.keeps (rules_grows env.Tells) (grows_batchSign svc env)
    exact ih.append (hread.append (hcall.append ih'))

/-- **What is known once a request has been processed is known when the call ends**, at whatever depth
the request is taken up. -/
theorem Takes.retains (hone : env.OneTable) {b : Batch} (h : svc.Takes env b n es r m) :
    (svc.batchSign env b n).node.Retains (svc.process env (svc.batchSign env) r m).node := by
  have hnested := grows_batchSign svc env
  induction h with
  | @own b n earlier rest r signed hroom heq hsigned =>
    rw [batchSign_eq_admitted hroom]
    refine (Node.Retains.of_eq (counts_admitted b)).trans ?_
    rw [heq]
    exact retains_processAll hnested hsigned
  | nested _ hawaited hcalls _ ih ih' =>
    refine ih.trans (.trans (.of_eq (counts_process hawaited)) ?_)
    exact (hcalls.retains hnested hone).trans ih'

end Service

end

end BlobSigner
