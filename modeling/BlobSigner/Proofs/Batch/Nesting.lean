import BlobSigner.Proofs.Batch.History
import BlobSigner.Proofs.Request.Process
/-!
# Calls within calls

A look-up may have batches signed whose own look-ups have further batches signed, and so on. The
only bound on this is the admission's: what is nested in a call finds one call more in progress, and
at the limit a call is turned away. So the nesting ends (`runs_iff`), and along the way the number of
calls in progress is that of the calls admitted and not yet returned (`batchSign_nesting`).
-/
namespace BlobSigner

/-! ## Calls in progress -/

/-- What an event adds to the calls in progress. -/
def Event.change : Event → Int
  | .enter _ => 1
  | .leave _ => -1
  | _ => 0

/-- The calls admitted in a history, less those that have returned. -/
def unreturned (es : List Event) : Int := (es.map Event.change).sum

/-- An event that leaves the calls in progress at `ongoing`, and shows no other number of them. -/
def Event.Idle (ongoing : Nat) : Event → Prop
  | .enter _ => False
  | .leave _ => False
  | .answered _ k => k = ongoing
  | _ => True

@[simp] theorem unreturned_nil : unreturned [] = 0 := rfl

@[simp] theorem unreturned_cons (e : Event) (es : List Event) :
    unreturned (e :: es) = e.change + unreturned es := by
  simp [unreturned]

theorem Event.Idle.change_eq {k : Nat} {e : Event} (h : e.Idle k) : e.change = 0 := by
  cases e with
  | enter _ => exact absurd h id
  | leave _ => exact absurd h id
  | _ => rfl

/-- The admission goes along with a history: it admits and ends calls where the history says so, and
always holds the number that the history shows. The first `outer` calls do not end. -/
inductive Admission.Along (outer : Nat) : Admission → List Event → Admission → Prop where
  | done {a : Admission} : Along outer a [] a
  | idle {a a' : Admission} {e : Event} {es : List Event} :
      e.Idle a.ongoing → Along outer a es a' → Along outer a (e :: es) a'
  | enter {a a₁ a' : Admission} {es : List Event} :
      a.enter? = some a₁ → Along outer a₁ es a' → Along outer a (.enter a₁.ongoing :: es) a'
  | leave {a a' : Admission} {es : List Event} :
      outer < a.ongoing → Along outer a.leave es a' →
      Along outer a (.leave a.leave.ongoing :: es) a'

namespace Admission

variable {outer : Nat} {a a' a'' : Admission} {es es' : List Event}

theorem enter?_eq_some_iff :
    a.enter? = some a' ↔ a.ongoing < a.max ∧ a' = { a with ongoing := a.ongoing + 1 } := by
  unfold enter?
  split
  · rename_i h
    simp only [Option.some.injEq, h, true_and, eq_comm]
  · rename_i h
    simp only [h, false_and, reduceCtorEq]

theorem leave_enter (a : Admission) : leave { a with ongoing := a.ongoing + 1 } = a := rfl

namespace Along

theorem append (h : Along outer a es a') (h' : Along outer a' es' a'') :
    Along outer a (es ++ es') a'' := by
  induction h with
  | done => exact h'
  | idle he _ ih => exact .idle he (ih h')
  | enter he _ ih => exact .enter he (ih h')
  | leave he _ ih => exact .leave he (ih h')

/-- At every moment of a history the admission has a state of its own. -/
theorem exists_moment (h : Along outer a (es ++ es') a'') :
    ∃ a', Along outer a es a' ∧ Along outer a' es' a'' := by
  induction es generalizing a with
  | nil => exact ⟨a, .done, h⟩
  | cons e es ih =>
    cases h with
    | idle he hes =>
      obtain ⟨a', h, h'⟩ := ih hes
      exact ⟨a', .idle he h, h'⟩
    | enter he hes =>
      obtain ⟨a', h, h'⟩ := ih hes
      exact ⟨a', .enter he h, h'⟩
    | leave he hes =>
      obtain ⟨a', h, h'⟩ := ih hes
      exact ⟨a', .leave he h, h'⟩

theorem of_idle (h : ∀ e ∈ es, e.Idle a.ongoing) : Along outer a es a := by
  induction es with
  | nil => exact .done
  | cons e es ih =>
    obtain ⟨he, hes⟩ := List.forall_mem_cons.1 h
    exact .idle he (ih hes)

theorem max_eq (h : Along outer a es a') : a'.max = a.max := by
  induction h with
  | done => rfl
  | idle _ _ ih => exact ih
  | enter he _ ih =>
    obtain ⟨-, rfl⟩ := enter?_eq_some_iff.1 he
    exact ih
  | leave _ _ ih => exact ih

theorem ongoing_eq (h : Along outer a es a') : (a'.ongoing : Int) = a.ongoing + unreturned es := by
  induction h with
  | done => simp
  | idle he _ ih =>
    have hsame := he.change_eq
    rw [unreturned_cons]
    omega
  | enter he _ ih =>
    obtain ⟨-, rfl⟩ := enter?_eq_some_iff.1 he
    rw [unreturned_cons, Event.change]
    simp only at ih
    omega
  | leave hlt _ ih =>
    rw [unreturned_cons, Event.change]
    simp only [Admission.leave] at ih
    omega

theorem outer_le (h : Along outer a es a') (hle : outer ≤ a.ongoing) : outer ≤ a'.ongoing := by
  induction h with
  | done => exact hle
  | idle _ _ ih => exact ih hle
  | enter he _ ih =>
    obtain ⟨-, rfl⟩ := enter?_eq_some_iff.1 he
    exact ih (Nat.le_succ_of_le hle)
  | leave hlt _ ih => exact ih (Nat.le_sub_one_of_lt hlt)

/-- No admission takes the calls in progress past the limit. -/
theorem ongoing_le (h : Along outer a es a') : a'.ongoing ≤ a.max ∨ a'.ongoing ≤ a.ongoing := by
  induction h with
  | done => exact Or.inr (Nat.le_refl _)
  | idle _ _ ih => exact ih
  | enter he _ ih =>
    obtain ⟨hlt, rfl⟩ := enter?_eq_some_iff.1 he
    simp only at ih
    omega
  | leave _ _ ih =>
    simp only [Admission.leave] at ih
    omega

end Along

end Admission

/-! ## Histories keep count -/

theorem Writes.idle {n n' : Node} {es : List Event} (h : Writes n es n') (k : Nat) :
    ∀ e ∈ es, e.Idle k := by
  induction h with
  | done records => exact List.forall_mem_map.2 fun _ _ => trivial
  | stored _ _ ih => exact List.forall_mem_cons.2 ⟨trivial, ih⟩
  | failed records _ =>
    exact List.forall_mem_cons.2 ⟨trivial, List.forall_mem_map.2 fun _ _ => trivial⟩

theorem Writes.admission_eq {n n' : Node} {es : List Event} (h : Writes n es n') :
    n'.admission = n.admission := by
  induction h with
  | done _ => rfl
  | stored _ _ ih => exact ih
  | failed _ _ => rfl

/-- **A history leaves the calls in progress as they were.** -/
theorem Examines.admission_eq {n n' : Node} {es : List Event} (h : Examines n es n') :
    n'.admission = n.admission := by
  induction h with
  | next _ _ ih ih' => exact ih'.trans ih
  | ask _ _ ih => exact ih
  | learn _ _ _ ih => exact ih
  | @call n m n' e w _ _ hw ih =>
    have hlast : n'.admission = n.enter.admission := hw.admission_eq.trans ih
    show n'.admission.leave = n.admission
    rw [hlast]
    exact Admission.leave_enter n.admission
  | _ => rfl

/-- The admission goes along with every history, and no call ends that was there before it. -/
theorem Examines.along {n n' : Node} {es : List Event} (h : Examines n es n') {outer : Nat}
    (hle : outer ≤ n.admission.ongoing) : n.admission.Along outer es n'.admission := by
  induction h with
  | nothing => exact .done
  | next h _ ih ih' =>
    have hmiddle := ih hle
    exact hmiddle.append (ih' (hmiddle.outer_le hle))
  | log record => exact .idle trivial .done
  | readStatus k => exact .idle trivial .done
  | readAssignment k => exact .idle trivial .done
  | ask _ _ ih => exact .idle trivial (ih hle)
  | learn count _ _ ih => exact .idle trivial (ih hle)
  | checkSlices calls => exact .of_idle (List.forall_mem_map.2 fun _ _ => trivial)
  | answered reply => exact .idle rfl .done
  | @call n m n' e w hroom he hw ih =>
    have hlast : n'.admission = n.enter.admission := hw.admission_eq.trans he.admission_eq
    have hwork : n.enter.admission.Along outer (e ++ w) n'.admission := by
      refine (ih (Nat.le_succ_of_le hle)).append ?_
      rw [hw.admission_eq]
      exact .of_idle (hw.idle _)
    have hopen : n.admission.enter? = some n.enter.admission :=
      Admission.enter?_eq_some_iff.2 ⟨hroom, rfl⟩
    have hclose : n'.admission.Along outer [.leave n'.release.admission.ongoing]
        n'.release.admission := by
      refine .leave ?_ .done
      rw [hlast]
      exact Nat.lt_succ_of_le hle
    exact .enter hopen (hwork.append hclose)

/-! ## Calls that a look-up makes -/

/-- What a look-up sees of a call that it makes. -/
def Traced.answering (t : Traced Reply) : List Event :=
  t.events ++ [.answered t.value t.node.admission.ongoing]

section

variable (env : Surroundings) (nested : Batch → Node → Traced Reply)

/-- The look-up, begun on a node, has come after some events to what `rest` has yet to do, on the node
that it finds there: in its own course, or in that of a look-up for a count that it fetches. -/
inductive Lookup.Reaches : Lookup → Node → List Event → Lookup → Node → Prop where
  | here {l : Lookup} {n : Node} : Reaches l n [] l n
  | replied {b : Batch} {next : Reply → Lookup} {n m : Node} {es : List Event} {rest : Lookup} :
      Reaches (next (nested b n).value) (nested b n).node es rest m →
      Reaches (.call b next) n ((nested b n).answering ++ es) rest m
  | inner {epoch : UInt64} {inner : Lookup} {next : Except LookupError UInt64 → Lookup} {n m : Node}
      {es : List Event} {rest : Lookup} : n.counts.get? epoch = none →
      Reaches inner { n with lookups := n.lookups + 1 } es rest m →
      Reaches (.fetch epoch inner next) n (.lookup epoch :: es) rest m
  | fetched {epoch : UInt64} {inner : Lookup} {next : Except LookupError UInt64 → Lookup} {n m : Node}
      {es : List Event} {rest : Lookup} :
      Reaches (next (n.fetchBy (Node.consult nested inner) epoch).value)
        (n.fetchBy (Node.consult nested inner) epoch).node es rest m →
      Reaches (.fetch epoch inner next) n
        ((n.fetchBy (Node.consult nested inner) epoch).events ++ es) rest m

/-- The look-up has a batch signed on the node that it finds after some events. -/
def Lookup.Calls (l : Lookup) (n : Node) (es : List Event) (b : Batch) (m : Node) : Prop :=
  ∃ next, l.Reaches nested n es (.call b next) m

/-- The same of a node that fetches the count of an epoch. -/
inductive Node.Calls (epoch : UInt64) (n : Node) : List Event → Batch → Node → Prop where
  | asked {es : List Event} {b : Batch} {m : Node} : n.counts.get? epoch = none →
      (env.lookup n.lookups epoch).Calls nested { n with lookups := n.lookups + 1 } es b m →
      Calls epoch n (.lookup epoch :: es) b m

end

section

variable {env : Surroundings} {nested : Batch → Node → Traced Reply} {n m : Node}
variable {es : List Event} {b : Batch}

theorem Lookup.Reaches.prefix_consult {l rest : Lookup} (h : l.Reaches nested n es rest m) :
    es ++ (Node.consult nested rest m).events <+: (Node.consult nested l n).events := by
  induction h with
  | here => exact List.prefix_rfl
  | replied _ ih =>
    rw [List.append_assoc]
    exact (List.prefix_append_right_inj _).2 ih
  | inner hc _ ih =>
    rw [Node.consult, Traced.after, Node.events_fetchBy hc]
    exact (List.cons_prefix_cons.2 ⟨rfl, ih⟩).trans (List.prefix_append ..)
  | fetched _ ih =>
    rw [List.append_assoc]
    exact (List.prefix_append_right_inj _).2 ih

/-- What is left of a look-up tells no more than the whole of it. -/
theorem Lookup.Reaches.tells {l rest : Lookup} (h : l.Reaches nested n es rest m) (own : UInt64) :
    ∃ own', ∀ {epoch count}, rest.Tells own' epoch count → l.Tells own epoch count := by
  induction h generalizing own with
  | here => exact ⟨own, id⟩
  | replied _ ih => exact (ih own).imp fun _ h _ _ hrest => .call _ (h hrest)
  | inner _ _ ih => exact (ih _).imp fun _ h _ _ hrest => .inner (h hrest)
  | fetched _ ih => exact (ih own).imp fun _ h _ _ hrest => .next _ (h hrest)

theorem Lookup.Calls.prefix_consult {l : Lookup} (h : l.Calls nested n es b m) :
    es ++ (nested b m).events <+: (Node.consult nested l n).events := by
  obtain ⟨next, h⟩ := h
  refine List.IsPrefix.trans ?_ h.prefix_consult
  rw [Node.consult, Traced.after, List.append_assoc]
  exact (List.prefix_append_right_inj _).2 (List.prefix_append ..)

theorem Node.Calls.prefix_fetchCount {epoch : UInt64} (h : n.Calls env nested epoch es b m) :
    es ++ (nested b m).events <+: (n.fetchCount env nested epoch).events := by
  obtain ⟨hc, hcalls⟩ := h
  rw [fetchCount, events_fetchBy hc]
  exact List.cons_prefix_cons.2 ⟨rfl, hcalls.prefix_consult⟩

/-- A check begins with the count. -/
theorem Node.prefix_verify (pool : Pool) (d : Decoded) :
    (n.fetchCount env nested d.key.epoch).events <+: (n.verify env nested pool d).events := by
  rw [Node.verify, ← Traced.events_map _ (n.fetchCount env nested d.key.epoch)]
  exact Traced.events_prefix_andThen _ _

section

variable {R : Node → List Event → Node → Prop} {tells : UInt64 → UInt64 → Prop}
  (hr : Rules tells R) (hnested : ∀ b n, R n (nested b n).events (nested b n).node)

include hr hnested

/-- What happens up to any point of a look-up keeps to the rules. -/
theorem Lookup.Reaches.keeps {l rest : Lookup} {own : UInt64} (h : l.Reaches nested n es rest m)
    (hl : ∀ epoch count, l.Tells own epoch count → tells epoch count) : R n es m := by
  induction h generalizing own with
  | here => exact hr.nothing
  | replied _ ih =>
    exact hr.next (hr.next (hnested _ _) (hr.answered _))
      (ih fun epoch count h => hl epoch count (.call _ h))
  | inner hc _ ih => exact hr.ask hc (ih fun epoch count h => hl epoch count (.inner h))
  | @fetched epoch inner next n _ _ _ _ ih =>
    have hinner : ∀ epoch' count, inner.Tells epoch epoch' count → tells epoch' count :=
      fun epoch' count h => hl epoch' count (.inner h)
    have hfetch := hr.fetchBy (hr.consult hnested hinner)
      (fun _ count hv => hinner epoch count (Node.tells_of_consult hv epoch)) n
    exact hr.next hfetch (ih fun epoch count h => hl epoch count (.next _ h))

end

theorem Node.Calls.keeps {R : Node → List Event → Node → Prop} (hr : Rules env.Tells R)
    (hnested : ∀ b n, R n (nested b n).events (nested b n).node) {epoch : UInt64}
    (h : n.Calls env nested epoch es b m) : R n es m := by
  obtain ⟨hc, next, hreaches⟩ := h
  exact hr.ask hc (hreaches.keeps hr hnested fun _ _ h => ⟨_, _, h⟩)

theorem Node.Calls.examines (hnested : ∀ b n, Examines n (nested b n).events (nested b n).node)
    {epoch : UInt64} (h : n.Calls env nested epoch es b m) : Examines n es m :=
  h.keeps (rules_examines env.Tells) hnested

end

/-! ## A call depends on the calls within it only -/

theorem Node.fetchBy_congr {lookUp lookUp' : Node → Traced (Except LookupError UInt64)}
    {epoch : UInt64} {n : Node}
    (h : lookUp { n with lookups := n.lookups + 1 } = lookUp' { n with lookups := n.lookups + 1 }) :
    n.fetchBy lookUp epoch = n.fetchBy lookUp' epoch := by
  unfold fetchBy
  rw [h]

section

variable {nested nested' : Batch → Node → Traced Reply}
  (hnested : ∀ b n, Examines n (nested b n).events (nested b n).node)
  {a : Admission} (hagree : ∀ b m, m.admission = a → nested b m = nested' b m) {n : Node}

include hnested hagree

namespace Node

theorem consult_congr (l : Lookup) (hn : n.admission = a) :
    consult nested l n = consult nested' l n := by
  induction l generalizing n with
  | answer result => rfl
  | call b next ih =>
    have hback : (nested b n).node.admission = a := (hnested b n).admission_eq.trans hn
    rw [consult, consult, ← hagree b n hn, ih _ hback]
  | fetch epoch inner next ih ih' =>
    have hfetch : n.fetchBy (consult nested inner) epoch = n.fetchBy (consult nested' inner) epoch :=
      fetchBy_congr (ih hn)
    have hrules := rules_examines (inner.Tells epoch)
    have hback : (n.fetchBy (consult nested inner) epoch).node.admission = a :=
      (hrules.fetchBy (hrules.consult hnested fun _ _ h => h)
        (fun _ _ hv => tells_of_consult hv epoch) n).admission_eq.trans hn
    rw [consult, consult, ← hfetch, ih' _ hback]

theorem fetchCount_congr (env : Surroundings) (epoch : UInt64) (hn : n.admission = a) :
    n.fetchCount env nested epoch = n.fetchCount env nested' epoch :=
  fetchBy_congr (consult_congr hnested hagree (env.lookup n.lookups epoch) hn)

theorem verify_congr (env : Surroundings) (pool : Pool) (d : Decoded) (hn : n.admission = a) :
    n.verify env nested pool d = n.verify env nested' pool d := by
  unfold verify
  rw [fetchCount_congr hnested hagree env d.key.epoch hn]

end Node

namespace Service

variable (svc : Service) (env : Surroundings)

theorem process_congr (r : Request) (hn : n.admission = a) :
    svc.process env nested r n = svc.process env nested' r n := by
  refine Traced.andThen_congr fun d => Traced.andThen_congr fun _ => ?_
  exact congrArg (Traced.andThen · _) (Node.verify_congr hnested hagree env svc.pool d hn)

theorem processAll_congr (i : Nat) (rs : List Request) (hn : n.admission = a) :
    svc.processAll env nested i rs n = svc.processAll env nested' i rs n := by
  induction rs generalizing i n with
  | nil => rfl
  | cons r rs ih =>
    have hr := process_congr hnested hagree svc env r hn
    have hnext : (svc.process env nested r n).node.admission = a :=
      (examines_process svc env hnested r n).admission_eq.trans hn
    cases hv : (svc.process env nested r n).value with
    | error cause =>
      rw [processAll_cons_of_error hv, processAll_cons_of_error (hr ▸ hv), hr]
    | ok s =>
      rw [processAll_cons_of_ok hv, processAll_cons_of_ok (hr ▸ hv), ih _ hnext, hr]

theorem admitted_congr (b : Batch) (hn : n.admission = a) :
    svc.admitted env nested b n = svc.admitted env nested' b n := by
  unfold admitted signAll
  rw [processAll_congr hnested hagree svc env 0 b.requests hn]

end Service

end

namespace Service

variable {svc : Service} {env : Surroundings}

/-- The depth makes no difference once it covers what the limit leaves free. -/
theorem batchSignWithin_congr {depth depth' : Nat} {n : Node} (b : Batch)
    (h : n.admission.max ≤ n.admission.ongoing + depth)
    (h' : n.admission.max ≤ n.admission.ongoing + depth') :
    svc.batchSignWithin env depth b n = svc.batchSignWithin env depth' b n := by
  -- one level deeper there is one call more in progress, so what is left free is still covered
  induction depth generalizing depth' b n with
  | zero => rw [batchSignWithin_of_full (by omega), batchSignWithin_of_full (by omega)]
  | succ depth ih =>
    by_cases hroom : n.admission.ongoing < n.admission.max
    · obtain ⟨depth', rfl⟩ : ∃ k, depth' = k + 1 := ⟨depth' - 1, by omega⟩
      rw [batchSignWithin_of_room hroom, batchSignWithin_of_room hroom]
      refine admitted_congr (examines_batchSignWithin svc env depth) (fun b' m hm => ?_) svc env b
        rfl
      refine ih b' ?_ ?_
      · rw [hm, Node.max_enter, Node.ongoing_enter]
        omega
      · rw [hm, Node.max_enter, Node.ongoing_enter]
        omega
    · rw [batchSignWithin_of_full hroom, batchSignWithin_of_full hroom]

/-- What is nested in a call is signed as the call itself is, without a depth to count. -/
theorem batchSign_eq_admitted {b : Batch} {n : Node} (h : n.admission.ongoing < n.admission.max) :
    svc.batchSign env b n = svc.admitted env (svc.batchSign env) b n.enter := by
  rw [batchSign_of_room h]
  refine admitted_congr (examines_batchSignWithin svc env _) (fun b' m hm => ?_) svc env b rfl
  refine batchSignWithin_congr b' ?_ (by omega)
  rw [hm, Node.max_enter, Node.ongoing_enter]
  omega

/-! ## Calls come to an end -/

/-- A call that comes to an end: it is turned away, or it is worked on while every call nested in it
comes to an end. Nothing bounds the nesting but that. -/
inductive Runs (svc : Service) (env : Surroundings) : Batch → Node → Traced Reply → Prop where
  | shed {b : Batch} {n : Node} : ¬ n.admission.ongoing < n.admission.max → Runs svc env b n (shed n)
  | admitted {b : Batch} {n : Node} (nested : Batch → Node → Traced Reply) :
      n.admission.ongoing < n.admission.max →
      (∀ b' m, m.admission = n.enter.admission → Runs svc env b' m (nested b' m)) →
      Runs svc env b n (svc.admitted env nested b n.enter)

theorem examines_batchSign (svc : Service) (env : Surroundings) (b : Batch) (n : Node) :
    Examines n (svc.batchSign env b n).events (svc.batchSign env b n).node :=
  examines_batchSignWithin svc env n.admission.max b n

theorem runs_batchSign (svc : Service) (env : Surroundings) (b : Batch) (n : Node) :
    svc.Runs env b n (svc.batchSign env b n) := by
  -- by induction on what the limit leaves free
  generalize hfree : n.admission.max - n.admission.ongoing = free
  induction free generalizing b n with
  | zero =>
    have hfull : ¬ n.admission.ongoing < n.admission.max := by omega
    rw [batchSign_of_full hfull]
    exact .shed hfull
  | succ free ih =>
    have hroom : n.admission.ongoing < n.admission.max := by omega
    rw [batchSign_eq_admitted hroom]
    refine .admitted (svc.batchSign env) hroom fun b' m hm => ih b' m ?_
    rw [hm, Node.max_enter, Node.ongoing_enter]
    omega

/-- **Every call comes to an end, and to one end only.** -/
theorem runs_iff {b : Batch} {n : Node} {t : Traced Reply} :
    svc.Runs env b n t ↔ t = svc.batchSign env b n := by
  constructor
  · intro h
    induction h with
    | shed hfull => rw [batchSign_of_full hfull]
    | admitted nested hroom _ ih =>
      rw [batchSign_eq_admitted hroom]
      exact (admitted_congr (examines_batchSign svc env) (fun b' m hm => (ih b' m hm).symm) svc env _
        rfl).symm
  · rintro rfl
    exact runs_batchSign svc env b n

/-! ## How look-ups nest calls -/

section

variable {nested : Batch → Node → Traced Reply} {n : Node}

/-- The count of a request that awaits its signature is fetched once its status has been read. -/
theorem prefix_process_of_awaited {r : Request} {d : Decoded}
    (hr : r.Awaited svc.payloadLimit n.store d) :
    .readStatus d.key (n.store.readStatus d.key) :: (n.fetchCount env nested d.key.epoch).events <+:
      (svc.process env nested r n).events := by
  rw [process_of_awaited env nested hr]
  refine (List.prefix_append_right_inj [Event.readStatus d.key (n.store.readStatus d.key)]).2 ?_
  exact (Node.prefix_verify svc.pool d).trans (Traced.events_prefix_andThen _ _)

/-- The calls that the look-up of a request makes are made while the request is processed. -/
theorem prefix_process_of_calls {r : Request} {d : Decoded} {es : List Event} {b : Batch} {m : Node}
    (hr : r.Awaited svc.payloadLimit n.store d) (h : n.Calls env nested d.key.epoch es b m) :
    .readStatus d.key (n.store.readStatus d.key) :: (es ++ (nested b m).events) <+:
      (svc.process env nested r n).events :=
  (List.cons_prefix_cons.2 ⟨rfl, h.prefix_fetchCount⟩).trans (prefix_process_of_awaited hr)

/-- A request that awaits its signature, in an epoch whose count is not known, has the first batch of
its look-up signed. -/
theorem prefix_process_of_call {r : Request} {d : Decoded} {b : Batch} {next : Reply → Lookup}
    (hr : r.Awaited svc.payloadLimit n.store d) (hcount : n.counts.get? d.key.epoch = none)
    (hlookup : env.lookup n.lookups d.key.epoch = .call b next) :
    .readStatus d.key (n.store.readStatus d.key) :: .lookup d.key.epoch ::
        (nested b { n with lookups := n.lookups + 1 }).events <+:
      (svc.process env nested r n).events := by
  have hfirst : (env.lookup n.lookups d.key.epoch).Calls nested { n with lookups := n.lookups + 1 }
      [] b { n with lookups := n.lookups + 1 } := ⟨next, hlookup ▸ .here⟩
  exact prefix_process_of_calls hr (.asked hcount hfirst)

theorem prefix_processAll (i : Nat) (r : Request) (rs : List Request) :
    (svc.process env nested r n).events <+: (svc.processAll env nested i (r :: rs) n).events := by
  cases hv : (svc.process env nested r n).value with
  | error cause =>
    rw [processAll_cons_of_error hv]
    exact List.prefix_append ..
  | ok s =>
    rw [processAll_cons_of_ok hv]
    exact List.prefix_append ..

/-- Once those before it have been signed, a request is processed. -/
theorem prefix_processAll_of_signed {i : Nat} (r : Request) {earlier : List Request}
    (rest : List Request) {signed : List Signed}
    (h : (svc.processAll env nested i earlier n).value = .ok signed) :
    (svc.processAll env nested i earlier n).events ++
        (svc.process env nested r (svc.processAll env nested i earlier n).node).events <+:
      (svc.processAll env nested i (earlier ++ r :: rest) n).events := by
  induction earlier generalizing i n signed with
  | nil => exact prefix_processAll i r rest
  | cons r' earlier ih =>
    obtain ⟨s, later, hr', hlater, -⟩ := exists_of_processAll_cons h
    rw [List.cons_append, processAll_cons_of_ok hr', processAll_cons_of_ok hr', Traced.after,
      Traced.after, List.append_assoc]
    exact (List.prefix_append_right_inj _).2 (ih hlater)

/-- An admitted call begins and then comes to its requests in turn. -/
theorem prefix_batchSign_of_signed {b : Batch} {earlier rest : List Request} {r : Request}
    {signed : List Signed} (h : n.admission.ongoing < n.admission.max)
    (hb : b.requests = earlier ++ r :: rest)
    (hsigned : (svc.processAll env (svc.batchSign env) 0 earlier n.enter).value = .ok signed) :
    .enter (n.admission.ongoing + 1) :: .log (receivedRecord b) ::
        ((svc.processAll env (svc.batchSign env) 0 earlier n.enter).events ++
          (svc.process env (svc.batchSign env) r
            (svc.processAll env (svc.batchSign env) 0 earlier n.enter).node).events) <+:
      (svc.batchSign env b n).events := by
  rw [batchSign_eq_admitted h, admitted, signAll, hb]
  refine (List.prefix_append_right_inj [Event.enter _, Event.log _]).2 ?_
  refine List.IsPrefix.trans ?_ (List.prefix_append ..)
  exact (prefix_processAll_of_signed r rest hsigned).trans (Traced.events_prefix_andThen _ _)

/-- What an admitted call does for its first request comes after its beginning. -/
theorem prefix_batchSign {b : Batch} {r : Request} {rs : List Request} (hb : b.requests = r :: rs)
    (h : n.admission.ongoing < n.admission.max) :
    .enter (n.admission.ongoing + 1) :: .log (receivedRecord b) ::
        (svc.process env (svc.batchSign env) r n.enter).events <+:
      (svc.batchSign env b n).events := by
  have hnone : (svc.processAll env (svc.batchSign env) 0 [] n.enter).value = .ok [] := rfl
  exact prefix_batchSign_of_signed h hb hnone

end

/-! ## What a call does to the admission -/

/-- **Calls within calls stay within the limit.** Every call comes to one end. At every moment until
then the calls in progress are those from before and those that have been admitted and have not
returned, and within the limit; a call that finds the limit reached is turned away without any work;
and however a call ends, as many are in progress as when it came. -/
theorem batchSign_nesting (svc : Service) (env : Surroundings) (b : Batch) (n : Node) :
    let t := svc.batchSign env b n
    (∀ u, svc.Runs env b n u ↔ u = t) ∧
    (∀ before after, t.events = before ++ after →
      ∃ a, n.admission.Along n.admission.ongoing before a ∧
        a.Along n.admission.ongoing after t.node.admission ∧ a.max = n.admission.max ∧
        (a.ongoing : Int) = n.admission.ongoing + unreturned before ∧
        0 ≤ unreturned before ∧ unreturned before ≤ n.admission.max ∧
        (n.admission.ongoing ≤ n.admission.max → a.ongoing ≤ a.max)) ∧
    (n.admission.max ≤ n.admission.ongoing →
      t.value = ⟨⟨.resourceExhausted, "request pool is full"⟩, []⟩ ∧ t.node = n ∧
        t.events = [.log n.admission.fullWarning]) ∧
    t.node.admission = n.admission := by
  intro t
  have ht : Examines n t.events t.node := examines_batchSign svc env b n
  refine ⟨fun u => runs_iff, fun before after hsplit => ?_, fun hfull => ?_, ht.admission_eq⟩
  · have halong := ht.along (Nat.le_refl n.admission.ongoing)
    rw [hsplit] at halong
    obtain ⟨a, hbefore, hafter⟩ := halong.exists_moment
    have hcount := hbefore.ongoing_eq
    have hlower := hbefore.outer_le (Nat.le_refl _)
    have hupper := hbefore.ongoing_le
    have hmax := hbefore.max_eq
    exact ⟨a, hbefore, hafter, hmax, hcount, by omega, by omega, fun hle => by omega⟩
  · have hshed : t = shed n := batchSign_of_full (Nat.not_lt.2 hfull)
    rw [hshed]
    exact ⟨rfl, rfl, rfl⟩

/-- At most two calls, and look-ups that always have the same batch signed once more. -/
theorem batchSign_nesting_reentrant :
    let r : Request := ⟨5, 2, Bytes32.zero.toList,
      1 :: List.replicate 31 0 ++ 2 :: List.replicate 31 0, []⟩
    let b : Batch := ⟨[r], ""⟩
    let svc : Service := ⟨1, 64, ⟨2, by decide⟩, by decide⟩
    let env : Surroundings := ⟨fun _ _ => .call b fun _ => .answer (.error (.chain "down")),
      fun _ _ _ => .accepted, fun _ => []⟩
    let k : BlobKey := ⟨5, 2, .zero⟩
    let n : Node := { Node.init ⟨2, 0, by decide⟩ with store := Store.empty.setStatus k .uploaded }
    let full : Node := { n with admission := ⟨2, 2, by decide⟩ }
    let before : List Event := [.enter 1, .log (receivedRecord b),
      .readStatus k (.ok (some .uploaded)), .lookup 5, .enter 2]
    (∃ after a, (svc.batchSign env b n).events = before ++ after ∧ n.admission.Along 0 before a ∧
      a.ongoing = a.max) ∧
    (svc.batchSign env b full).value.status.code = .resourceExhausted := by
  intro r b svc env k n full before
  have hd : r.Decodes svc.payloadLimit ⟨k, G1.generator, []⟩ :=
    { epoch := rfl
      quorum := rfl
      root := rfl
      commitment := Commitment.decode_generator
      slices := .nil }
  have hr : r.Awaited svc.payloadLimit n.enter.store ⟨k, G1.generator, []⟩ :=
    { toDecodes := hd
      uploaded := rfl }
  have hagain : [Event.enter 2] <+: (svc.batchSign env b { n.enter with lookups := 1 }).events :=
    (List.prefix_append _ _).trans
      (prefix_batchSign (n := { n.enter with lookups := 1 }) rfl (by decide))
  have hprocess : [Event.readStatus k (.ok (some .uploaded)), .lookup 5, .enter 2] <+:
      (svc.process env (svc.batchSign env) r n.enter).events :=
    (List.cons_prefix_cons.2 ⟨rfl, List.cons_prefix_cons.2 ⟨rfl, hagain⟩⟩).trans
      (prefix_process_of_call hr rfl rfl)
  obtain ⟨after, hafter⟩ : before <+: (svc.batchSign env b n).events :=
    (List.cons_prefix_cons.2 ⟨rfl, List.cons_prefix_cons.2 ⟨rfl, hprocess⟩⟩).trans
      (prefix_batchSign (n := n) (b := b) rfl (by decide))
  obtain ⟨-, hmoment, -⟩ := batchSign_nesting svc env b n
  obtain ⟨a, halong, -, hmax, hcount, -⟩ := hmoment before after hafter.symm
  obtain ⟨-, -, hfull, -⟩ := batchSign_nesting svc env b full
  refine ⟨⟨after, a, hafter.symm, halong, ?_⟩, by rw [(hfull (by decide)).1]⟩
  have htwo : (a.ongoing : Int) = 2 := hcount
  rw [hmax]
  show a.ongoing = 2
  omega

end Service

end BlobSigner
