import BlobSigner.Pool
import Mathlib.Data.List.Forall2
/-!
# Runs of a pool

Whatever the schedule, each position is at one place at a time: it waits, is at work or has its
result. The caller passes a wait only when the result is there, and fetches nothing before the last
wait (`Attended`). When a run has ended no move is left, so every position has its result, once, and
the call is over (`over_run`). What each task keeps up of its own position, and leaves in force for the
others (`Program.Contract`), therefore holds of all that the caller has fetched, in the order of
positions: `run_contract`.
-/
namespace BlobSigner

variable {σ τ α : Type}

namespace Pool.Machine

/-! ## What a move can do -/

/-- The moves that change something. -/
inductive Step (P : Program σ τ α) (count : Nat) (m : Machine σ τ α) : Machine σ τ α → Prop where
  | submit : m.submitted < count →
      Step P count m { m with submitted := m.submitted + 1, queue := m.queue ++ [m.submitted] }
  | take {w i : Nat} {rest : List Nat} : m.workers[w]? = some none → m.queue = i :: rest →
      Step P count m { m with queue := rest, workers := m.workers.set w (some (i, P.start i)) }
  | running {w i : Nat} {t t' : τ} {spurious : Bool} {s : σ} :
      m.workers[w]? = some (some (i, t)) → P.step i spurious t m.memory = (s, .running t') →
      Step P count m { m with memory := s, workers := m.workers.set w (some (i, t')) }
  | finished {w i : Nat} {t : τ} {spurious : Bool} {s : σ} {a : α} :
      m.workers[w]? = some (some (i, t)) → P.step i spurious t m.memory = (s, .finished a) →
      Step P count m { m with
        memory := s, workers := m.workers.set w none, results := (i, a) :: m.results }
  | wait : m.Awaited count → Step P count m { m with waited := m.waited + 1 }
  | fetch {a : α} : m.fetch? P count = some a →
      Step P count m { m with fetched := m.fetched ++ [a] }

variable {P : Program σ τ α} {count : Nat} {m m' : Machine σ τ α}

/-- A move that is not open changes nothing. -/
theorem move_eq_or_step (v : Move) : m.move P count v = m ∨ Step P count m (m.move P count v) := by
  cases v with
  | submit =>
    simp only [move]
    split
    · rename_i h
      exact Or.inr (.submit h)
    · exact Or.inl rfl
  | take w =>
    simp only [move]
    split
    · rename_i hw hq
      exact Or.inr (.take hw hq)
    · exact Or.inl rfl
  | advance w spurious =>
    simp only [move]
    split
    · rename_i i t hw
      right
      unfold advance
      split
      · rename_i h
        exact .running hw h
      · rename_i h
        exact .finished hw h
    · exact Or.inl rfl
  | wait =>
    simp only [move]
    split
    · rename_i h
      exact Or.inr (.wait h)
    · exact Or.inl rfl
  | fetch =>
    simp only [move]
    split
    · rename_i h
      exact Or.inr (.fetch h)
    · exact Or.inl rfl

/-! ## What a run keeps -/

section
variable {Inv : Machine σ τ α → Prop} (hstep : ∀ {m m'}, Inv m → Step P count m m' → Inv m')
include hstep

theorem move_inv (v : Move) (h : Inv m) : Inv (m.move P count v) := by
  rcases move_eq_or_step v with e | hs
  · rw [e]
    exact h
  · exact hstep h hs

theorem moves_inv (vs : Schedule) (h : Inv m) : Inv (vs.foldl (move P count) m) := by
  induction vs generalizing m with
  | nil => exact h
  | cons v vs ih => exact ih (move_inv hstep v h)

theorem settle_inv (h : Inv m) : Inv (m.settle P count) := by
  induction m using settle.induct P count with
  | case1 m v hv ih =>
    rw [settle.eq_1, hv]
    exact ih (move_inv hstep v h)
  | case2 m hn =>
    rw [settle.eq_1, hn]
    exact h

/-- What every move keeps, a run keeps. -/
theorem run_inv (schedule : Schedule) (h : Inv m) : Inv (m.run P count schedule) :=
  settle_inv hstep (moves_inv hstep schedule h)

end

theorem next?_settle (m : Machine σ τ α) : (m.settle P count).next? P count = none := by
  induction m using settle.induct P count with
  | case1 m v hv ih =>
    rw [settle.eq_1, hv]
    exact ih
  | case2 m hn =>
    rw [settle.eq_1, hn]
    exact hn

/-- After a run no move is left. -/
theorem next?_run (schedule : Schedule) : (m.run P count schedule).next? P count = none :=
  next?_settle _

/-- Without a move left all workers are idle, nothing waits for them, and the caller has handed in all,
waits for nothing that is there, and has nothing to fetch. -/
theorem of_next?_eq_none (hn : m.next? P count = none) (hne : m.workers ≠ []) :
    busy? m.workers = none ∧ m.queue = [] ∧ count ≤ m.submitted ∧ ¬ m.Awaited count ∧
      m.fetch? P count = none := by
  unfold next? at hn
  split at hn
  · cases hn
  · rename_i hbusy
    split at hn
    · cases hn
    · rename_i hqw
      have hqueue : m.queue = [] := by
        cases hq : m.queue with
        | nil => rfl
        | cons i rest =>
          obtain ⟨o, ws, hws⟩ := List.exists_cons_of_ne_nil hne
          exact absurd hws (hqw i rest o ws hq)
      unfold callerNext? at hn
      split at hn
      · cases hn
      · rename_i hsubmitted
        split at hn
        · cases hn
        · rename_i hwait
          split at hn
          · cases hn
          · rename_i hfetch
            exact ⟨hbusy, hqueue, Nat.not_lt.1 hsubmitted, hwait,
              Option.not_isSome_iff_eq_none.1 hfetch⟩

/-! ## Where the positions are -/

/-- The positions that workers are busy with. -/
def atWork (workers : List (Option (Nat × τ))) : List Nat := workers.filterMap fun o => o.map Prod.fst

@[simp] theorem atWork_append (ws ws' : List (Option (Nat × τ))) :
    atWork (ws ++ ws') = atWork ws ++ atWork ws' :=
  List.filterMap_append

/-- A list around one of its places, and with the place filled anew. -/
theorem exists_split_set {β : Type} {l : List β} {w : Nat} {a : β} (h : l[w]? = some a) :
    ∃ before after, l = before ++ a :: after ∧ ∀ b, l.set w b = before ++ b :: after := by
  obtain ⟨hw, rfl⟩ := List.getElem?_eq_some_iff.1 h
  have hset : ∀ b, l.set w b = l.take w ++ b :: l.drop (w + 1) := fun b => by
    rw [List.set_eq_take_append_cons_drop, if_pos hw]
  exact ⟨l.take w, l.drop (w + 1), by rw [← hset, List.set_getElem_self], hset⟩

theorem atWork_set_some {workers : List (Option (Nat × τ))} {w i : Nat} {t : τ}
    (h : workers[w]? = some none) :
    (atWork (workers.set w (some (i, t)))).Perm (i :: atWork workers) := by
  obtain ⟨before, after, rfl, hset⟩ := exists_split_set h
  rw [hset, atWork_append, atWork_append]
  exact List.perm_middle

theorem atWork_set_none {workers : List (Option (Nat × τ))} {w i : Nat} {t : τ}
    (h : workers[w]? = some (some (i, t))) :
    (i :: atWork (workers.set w none)).Perm (atWork workers) := by
  obtain ⟨before, after, rfl, hset⟩ := exists_split_set h
  rw [hset, atWork_append, atWork_append]
  exact List.perm_middle.symm

theorem atWork_set_running {workers : List (Option (Nat × τ))} {w i : Nat} {t t' : τ}
    (h : workers[w]? = some (some (i, t))) :
    atWork (workers.set w (some (i, t'))) = atWork workers := by
  obtain ⟨before, after, rfl, hset⟩ := exists_split_set h
  rw [hset, atWork_append, atWork_append]
  rfl

/-- Each position handed in waits, is at work or has its result, and is there once. -/
structure Accounted (count : Nat) (m : Machine σ τ α) : Prop where
  submitted_le : m.submitted ≤ count
  perm : (m.queue ++ atWork m.workers ++ m.results.map Prod.fst).Perm (List.range m.submitted)
  workers_ne_nil : m.workers ≠ []

theorem Accounted.lt_of_mem_queue (h : m.Accounted count) {i : Nat} (hi : i ∈ m.queue) :
    i < count := by
  have hmem : i ∈ List.range m.submitted := h.perm.subset (by simp [hi])
  have := List.mem_range.1 hmem
  have := h.submitted_le
  omega

theorem accounted_init {n : Nat} (hn : 0 < n) (s : σ) :
    (init n s : Machine σ τ α).Accounted count where
  submitted_le := Nat.zero_le _
  perm := by
    have : atWork (List.replicate n (none : Option (Nat × τ))) = [] := by simp [atWork]
    simp [init, this]
  workers_ne_nil := by
    simp only [init, ne_eq, List.replicate_eq_nil_iff]
    omega

theorem Accounted.step (h : m.Accounted count) (hs : Step P count m m') : m'.Accounted count := by
  obtain ⟨hle, hperm, hne⟩ := h
  cases hs with
  | submit hlt =>
    refine ⟨hlt, ?_, hne⟩
    rw [List.range_succ]
    refine .trans ?_ (hperm.append_right [m.submitted])
    have hcomm := @List.perm_append_comm _ [m.submitted] (atWork m.workers ++ m.results.map Prod.fst)
    simpa only [List.append_assoc] using hcomm.append_left m.queue
  | @take w i rest hw hq =>
    refine ⟨hle, ?_, by simpa using hne⟩
    refine .trans ?_ hperm
    rw [hq, List.cons_append, List.cons_append]
    refine (((atWork_set_some hw).append_left rest).append_right _).trans ?_
    rw [List.append_assoc, List.append_assoc, List.cons_append]
    exact List.perm_middle
  | running hw _ =>
    refine ⟨hle, ?_, by simpa using hne⟩
    simp only [atWork_set_running hw]
    exact hperm
  | @finished w i t _ s a hw _ =>
    refine ⟨hle, ?_, by simpa using hne⟩
    refine .trans ?_ hperm
    rw [List.map_cons]
    refine List.perm_middle.trans ?_
    rw [← List.cons_append]
    refine List.Perm.append_right _ (.trans ?_ ((atWork_set_none hw).append_left _))
    exact List.perm_middle.symm
  | wait _ => exact ⟨hle, hperm, hne⟩
  | fetch _ => exact ⟨hle, hperm, hne⟩

/-- A machine without a move has worked on every position. -/
theorem Accounted.perm_results (h : m.Accounted count) (hn : m.next? P count = none) :
    (m.results.map Prod.fst).Perm (List.range count) := by
  obtain ⟨hle, hperm, hne⟩ := h
  obtain ⟨hbusy, hqueue, hsubmitted, -, -⟩ := of_next?_eq_none hn hne
  have hidle : atWork m.workers = [] := by
    rw [atWork, List.filterMap_eq_nil_iff]
    intro o ho
    rw [eq_none_of_busy?_eq_none hbusy o ho]
    rfl
  simpa [hqueue, hidle, Nat.le_antisymm hle hsubmitted] using hperm

theorem mem_atWork {workers : List (Option (Nat × τ))} {i : Nat} {t : τ}
    (h : some (i, t) ∈ workers) : i ∈ atWork workers :=
  List.mem_filterMap.2 ⟨_, h, rfl⟩

/-- A position at work is nowhere else. -/
theorem Accounted.alone (h : m.Accounted count) {w i : Nat} {t : τ}
    (hw : m.workers[w]? = some (some (i, t))) :
    i < m.submitted ∧ i ∉ m.queue ∧ i ∉ atWork (m.workers.set w none) ∧
      i ∉ m.results.map Prod.fst := by
  have hperm : (m.queue ++ (i :: atWork (m.workers.set w none)) ++ m.results.map Prod.fst).Perm
      (List.range m.submitted) :=
    (((atWork_set_none hw).append_left m.queue).append_right _).trans h.perm
  have hmem : i ∈ List.range m.submitted := hperm.subset (by simp)
  have hnodup := hperm.nodup_iff.2 List.nodup_range
  have hnotin := (List.nodup_cons.1 ((List.perm_middle.append_right _).nodup_iff.1 hnodup)).1
  simp only [List.append_eq, List.mem_append, not_or] at hnotin
  exact ⟨List.mem_range.1 hmem, hnotin.1.1, hnotin.1.2, hnotin.2⟩

/-- Who is busy after one worker's place was filled anew: that worker, or one of the others. -/
theorem mem_set_workers {workers : List (Option (Nat × τ))} {w j : Nat} {u : τ}
    {o : Option (Nat × τ)} (hw : w < workers.length) (h : some (j, u) ∈ workers.set w o) :
    some (j, u) = o ∨ some (j, u) ∈ workers ∧ j ∈ atWork (workers.set w none) := by
  obtain ⟨before, after, hsplit, hset⟩ := exists_split_set (List.getElem?_eq_getElem hw)
  rw [hset, List.mem_append, List.mem_cons] at h
  have hothers : some (j, u) ∈ before ++ after → some (j, u) ∈ workers ∧
      j ∈ atWork (workers.set w none) := by
    intro hmem
    refine ⟨?_, mem_atWork (t := u) ?_⟩
    · rw [hsplit]
      exact List.perm_middle.symm.subset (List.mem_cons_of_mem _ hmem)
    · rw [hset]
      exact List.perm_middle.symm.subset (List.mem_cons_of_mem _ hmem)
  rcases h with h | h | h
  · exact Or.inr (hothers (List.mem_append_left _ h))
  · exact Or.inl h
  · exact Or.inr (hothers (List.mem_append_right _ h))

/-! ## What the caller has seen -/

theorem lookup_isSome_iff {results : List (Nat × α)} {i : Nat} :
    (results.lookup i).isSome ↔ i ∈ results.map Prod.fst := by
  rw [List.lookup_isSome_iff, List.mem_map]
  exact exists_congr fun p => and_congr_right fun _ => beq_iff_eq.trans eq_comm

theorem mem_of_lookup_eq_some {results : List (Nat × α)} {i : Nat} {a : α}
    (h : results.lookup i = some a) : (i, a) ∈ results := by
  obtain ⟨before, after, rfl, -⟩ := List.lookup_eq_some_iff.1 h
  exact List.mem_append_right _ List.mem_cons_self

theorem of_fetch?_eq_some {a : α} (h : m.fetch? P count = some a) :
    m.Fetching P count ∧ (m.fetched.length, a) ∈ m.results := by
  unfold fetch? at h
  split at h
  · exact ⟨‹_›, mem_of_lookup_eq_some h⟩
  · cases h

/-- The waits that are over were for results that are there, and what is fetched stands at its own
position. Nothing is fetched before the last wait is over. -/
structure Attended (count : Nat) (m : Machine σ τ α) : Prop where
  waited_le : m.waited ≤ count
  waited : ∀ i < m.waited, i ∈ m.results.map Prod.fst
  fetched_le : m.fetched.length ≤ count
  fetched : ∀ {i a}, m.fetched[i]? = some a → (i, a) ∈ m.results
  patient : m.fetched ≠ [] → m.waited = count

theorem attended_init (n : Nat) (s : σ) : (init n s : Machine σ τ α).Attended count where
  waited_le := Nat.zero_le _
  waited _ hi := absurd hi (Nat.not_lt_zero _)
  fetched_le := Nat.zero_le _
  fetched h := nomatch h
  patient h := absurd rfl h

theorem Attended.step (h : m.Attended count) (hs : Step P count m m') : m'.Attended count := by
  cases hs with
  | submit _ => exact ⟨h.waited_le, h.waited, h.fetched_le, h.fetched, h.patient⟩
  | take _ _ => exact ⟨h.waited_le, h.waited, h.fetched_le, h.fetched, h.patient⟩
  | running _ _ => exact ⟨h.waited_le, h.waited, h.fetched_le, h.fetched, h.patient⟩
  | finished _ _ =>
    exact ⟨h.waited_le, fun i hi => List.mem_cons_of_mem _ (h.waited i hi), h.fetched_le,
      fun ha => List.mem_cons_of_mem _ (h.fetched ha), h.patient⟩
  | wait hwait =>
    obtain ⟨-, hlt, hthere⟩ := hwait
    refine ⟨hlt, fun i hi => ?_, h.fetched_le, h.fetched, fun hne => ?_⟩
    · rcases Nat.lt_succ_iff_lt_or_eq.1 hi with hi | rfl
      · exact h.waited i hi
      · exact lookup_isSome_iff.1 hthere
    · exact absurd (h.patient hne) (Nat.ne_of_lt hlt)
  | @fetch a hfetch =>
    obtain ⟨⟨hwaited, hlt, -⟩, hmem⟩ := of_fetch?_eq_some hfetch
    refine ⟨h.waited_le, h.waited, ?_, fun {i b} hb => ?_, fun _ =>
      Nat.le_antisymm h.waited_le hwaited⟩
    · rw [List.length_append]
      exact hlt
    · rw [List.getElem?_append] at hb
      split at hb
      · exact h.fetched hb
      · obtain ⟨hi, rfl⟩ := List.getElem?_eq_some_iff.1 hb
        rw [List.length_singleton] at hi
        have hi : i = m.fetched.length := by omega
        subst hi
        simpa using hmem

/-- The caller has waited for all, and has fetched all results or come to a failure. -/
def Over (P : Program σ τ α) (count : Nat) (m : Machine σ τ α) : Prop :=
  m.waited = count ∧ (m.fetched.length = count ∨ m.fetched.any P.failed = true)

/-- A machine without a move has no caller that goes without its results. -/
theorem Attended.over (h : m.Attended count) (hacc : m.Accounted count)
    (hn : m.next? P count = none) : m.Over P count := by
  obtain ⟨-, -, hsubmitted, hwait, hfetch⟩ := of_next?_eq_none hn hacc.workers_ne_nil
  have hthere : ∀ i < count, (m.results.lookup i).isSome := fun i hi =>
    lookup_isSome_iff.2 ((hacc.perm_results hn).symm.subset (List.mem_range.2 hi))
  have hwaited : m.waited = count := by
    by_contra hne
    have hlt : m.waited < count := Nat.lt_of_le_of_ne h.waited_le hne
    exact hwait ⟨hsubmitted, hlt, hthere _ hlt⟩
  refine ⟨hwaited, ?_⟩
  by_contra hmore
  obtain ⟨hlength, hgood⟩ := not_or.1 hmore
  have hlt : m.fetched.length < count := Nat.lt_of_le_of_ne h.fetched_le hlength
  have hfetching : m.Fetching P count := ⟨Nat.le_of_eq hwaited.symm, hlt, by simpa using hgood⟩
  rw [fetch?, if_pos hfetching] at hfetch
  have hsome := hthere _ hlt
  rw [hfetch] at hsome
  cases hsome

/-- **A run ends with its call**, whatever the schedule. -/
theorem over_run {n : Nat} (hn : 0 < n) (s : σ) (schedule : Schedule) :
    ((init n s : Machine σ τ α).run P count schedule).Over P count :=
  (run_inv Attended.step schedule (attended_init n s)).over
    (run_inv Accounted.step schedule (accounted_init hn s)) (next?_run schedule)

end Pool.Machine

/-! ## Contracts of tasks -/

/-- How far the task of a position has come. -/
inductive Stage (τ α : Type) where
  | waiting
  | working (task : τ)
  | done (result : α)

def Progress.stage : Progress τ α → Stage τ α
  | running t => .working t
  | finished a => .done a

/-- What a program keeps up: `I` of the memory, and `K i` of the memory and the stage of position
`i`. The steps of the position's own task keep it up, and so do those of all others. -/
structure Program.Contract (P : Program σ τ α) (count : Nat) (I : σ → Prop)
    (K : Nat → Stage τ α → σ → Prop) : Prop where
  start : ∀ {i s}, i < count → I s → K i .waiting s → K i (.working (P.start i)) s
  own : ∀ {i t spurious s s' p}, I s → K i (.working t) s → P.step i spurious t s = (s', p) →
    I s' ∧ K i p.stage s'
  others : ∀ {i j t spurious s s' p stage}, j ≠ i → I s → K i (.working t) s →
    P.step i spurious t s = (s', p) → K j stage s → K j stage s'

/-- A contract in which no position looks at the memory: `T` of each task at work and `R` of each
result. -/
structure Program.Promise (P : Program σ τ α) (count : Nat) (I : σ → Prop) (T : Nat → τ → Prop)
    (R : Nat → α → Prop) : Prop where
  start : ∀ {i}, i < count → T i (P.start i)
  running : ∀ {i t t' spurious s s'}, I s → T i t → P.step i spurious t s = (s', .running t') →
    I s' ∧ T i t'
  finished : ∀ {i t spurious s s' a}, I s → T i t → P.step i spurious t s = (s', .finished a) →
    I s' ∧ R i a

/-- What is promised of a stage. -/
def Stage.Meets (T : Nat → τ → Prop) (R : Nat → α → Prop) (i : Nat) : Stage τ α → Prop
  | waiting => True
  | working t => T i t
  | done a => R i a

theorem Program.Promise.contract {P : Program σ τ α} {count : Nat} {I : σ → Prop}
    {T : Nat → τ → Prop} {R : Nat → α → Prop} (hP : P.Promise count I T R) :
    P.Contract count I fun i stage _ => stage.Meets T R i where
  start hi _ _ := hP.start hi
  own {i t spurious s s' p} hI hT h := by
    cases p with
    | running t' => exact hP.running hI hT h
    | finished a => exact hP.finished hI hT h
  others _ _ _ _ hj := hj

namespace Pool.Machine

variable {P : Program σ τ α} {count : Nat} {m m' : Machine σ τ α}
variable {I : σ → Prop} {K : Nat → Stage τ α → σ → Prop}

/-- The stage of a position. -/
inductive At (count : Nat) (m : Machine σ τ α) (i : Nat) : Stage τ α → Prop where
  | later : m.submitted ≤ i → i < count → At count m i .waiting
  | queued : i ∈ m.queue → At count m i .waiting
  | working {t : τ} : some (i, t) ∈ m.workers → At count m i (.working t)
  | done {a : α} : (i, a) ∈ m.results → At count m i (.done a)

/-- What the caller does moves no position. -/
theorem At.of_caller {waited : Nat} {fetched : List α} {i : Nat} {stage : Stage τ α}
    (h : At count { m with waited := waited, fetched := fetched } i stage) : At count m i stage := by
  cases h with
  | later hle hlt => exact .later hle hlt
  | queued hmem => exact .queued hmem
  | working hmem => exact .working hmem
  | done hmem => exact .done hmem

/-- With one worker's place and the results filled anew, a position is where these say, or it is
another than the worker's and where it was. -/
theorem Accounted.at_advanced (h : m.Accounted count) {w i : Nat} {t : τ}
    (hw : m.workers[w]? = some (some (i, t))) {s : σ} (o : Option (Nat × τ)) (new : List (Nat × α))
    {j : Nat} {stage : Stage τ α}
    (hj : At count { m with
      memory := s, workers := m.workers.set w o, results := new ++ m.results } j stage) :
    (∃ u, o = some (j, u) ∧ stage = .working u) ∨ (∃ a, (j, a) ∈ new ∧ stage = .done a) ∨
      j ≠ i ∧ m.At count j stage := by
  obtain ⟨hsubmitted, hqueue, hwork, hresults⟩ := h.alone hw
  cases hj with
  | later hle hlt =>
    have hlt' : i < j := Nat.lt_of_lt_of_le hsubmitted hle
    exact Or.inr (Or.inr ⟨by omega, .later hle hlt⟩)
  | queued hmem => exact Or.inr (Or.inr ⟨fun e => hqueue (e ▸ hmem), .queued hmem⟩)
  | @working u hmem =>
    rcases mem_set_workers (List.getElem?_eq_some_iff.1 hw).1 hmem with e | ⟨hmem, hothers⟩
    · exact Or.inl ⟨u, e.symm, rfl⟩
    · exact Or.inr (Or.inr ⟨fun e => hwork (e ▸ hothers), .working hmem⟩)
  | @done a hmem =>
    rcases List.mem_append.1 hmem with hmem | hmem
    · exact Or.inr (Or.inl ⟨a, hmem, rfl⟩)
    · exact Or.inr (Or.inr ⟨fun e => hresults (e ▸ List.mem_map_of_mem hmem), .done hmem⟩)

/-- A machine all of whose parts keep a contract. -/
structure Upholds (count : Nat) (I : σ → Prop) (K : Nat → Stage τ α → σ → Prop)
    (m : Machine σ τ α) : Prop where
  accounted : m.Accounted count
  memory : I m.memory
  stages : ∀ {i stage}, m.At count i stage → K i stage m.memory

theorem Upholds.step (hP : P.Contract count I K) (h : m.Upholds count I K)
    (hs : Step P count m m') : m'.Upholds count I K := by
  have hacc := h.accounted.step hs
  cases hs with
  | submit hlt =>
    refine ⟨hacc, h.memory, fun {j stage} hj => h.stages ?_⟩
    cases hj with
    | later hle hlt => exact .later (Nat.le_of_succ_le hle) hlt
    | queued hmem =>
      rcases List.mem_append.1 hmem with hmem | hmem
      · exact .queued hmem
      · -- it was not handed in before
        rw [List.mem_singleton.1 hmem]
        exact .later (Nat.le_refl _) hlt
    | working hmem => exact .working hmem
    | done hmem => exact .done hmem
  | @take w i rest _ hq =>
    refine ⟨hacc, h.memory, fun {j stage} hj => ?_⟩
    cases hj with
    | later hle hlt => exact h.stages (.later hle hlt)
    | queued hmem => exact h.stages (.queued (by rw [hq]; exact List.mem_cons_of_mem i hmem))
    | working hmem =>
      rcases List.mem_or_eq_of_mem_set hmem with hmem | e
      · exact h.stages (.working hmem)
      · cases e
        have hmem : i ∈ m.queue := by simp [hq]
        exact hP.start (h.accounted.lt_of_mem_queue hmem) h.memory (h.stages (.queued hmem))
    | done hmem => exact h.stages (.done hmem)
  | running hw hstep =>
    have hown := h.stages (.working (List.mem_of_getElem? hw))
    obtain ⟨hI, hK⟩ := hP.own h.memory hown hstep
    refine ⟨hacc, hI, fun {j stage} hj => ?_⟩
    rcases h.accounted.at_advanced hw _ [] hj with ⟨u, e, rfl⟩ | ⟨b, hmem, -⟩ | ⟨hne, hj⟩
    · cases e
      exact hK
    · cases hmem
    · exact hP.others hne h.memory hown hstep (h.stages hj)
  | @finished w i t _ s a hw hstep =>
    have hown := h.stages (.working (List.mem_of_getElem? hw))
    obtain ⟨hI, hK⟩ := hP.own h.memory hown hstep
    refine ⟨hacc, hI, fun {j stage} hj => ?_⟩
    rcases h.accounted.at_advanced hw none [(i, a)] hj with ⟨u, e, -⟩ | ⟨b, hmem, rfl⟩ | ⟨hne, hj⟩
    · cases e
    · cases List.mem_singleton.1 hmem
      exact hK
    · exact hP.others hne h.memory hown hstep (h.stages hj)
  | wait _ => exact ⟨hacc, h.memory, fun hj => h.stages hj.of_caller⟩
  | fetch _ => exact ⟨hacc, h.memory, fun hj => h.stages hj.of_caller⟩

theorem upholds_init {n : Nat} (hn : 0 < n) {s : σ} (hs : I s)
    (hwaiting : ∀ i < count, K i .waiting s) : (init n s).Upholds count I K where
  accounted := accounted_init hn s
  memory := hs
  stages hi := by
    cases hi with
    | later _ hlt => exact hwaiting _ hlt
    | queued hmem => simp [init] at hmem
    | working hmem => simp [init] at hmem
    | done hmem => simp [init] at hmem

end Pool.Machine

/-! ## Answers -/

theorem forall₂_range {β : Type} {R : Nat → β → Prop} {n : Nat} {l : List β} (hlength : l.length = n)
    (h : ∀ {i b}, l[i]? = some b → R i b) : List.Forall₂ R (List.range n) l := by
  refine List.forall₂_iff_get.2 ⟨by rw [List.length_range, hlength], fun i hi hl => ?_⟩
  rw [List.get_eq_getElem, List.get_eq_getElem, List.getElem_range]
  exact h (List.getElem?_eq_getElem hl)

theorem exists_of_forall₂_range {β : Type} {R : Nat → β → Prop} {n : Nat} {l : List β}
    (h : List.Forall₂ R (List.range n) l) {i : Nat} (hi : i < n) : ∃ b ∈ l, R i b := by
  have hl : i < l.length := by rwa [← h.length_eq, List.length_range]
  refine ⟨l[i], List.getElem_mem hl, ?_⟩
  have hget := h.get (by rwa [List.length_range]) hl
  simpa using hget

theorem forall_of_forall₂_range {β : Type} {R : Nat → β → Prop} {n : Nat} {l : List β}
    (h : List.Forall₂ R (List.range n) l) : ∀ b ∈ l, ∃ i < n, R i b := by
  intro b hb
  obtain ⟨i, hi, rfl⟩ := List.getElem_of_mem hb
  have hlt : i < (List.range n).length := by rwa [h.length_eq]
  have hget := h.get hlt hi
  exact ⟨i, by simpa using hlt, by simpa using hget⟩

namespace Pool

variable {P : Program σ τ α} {count : Nat} {I : σ → Prop}

/-- **Every schedule keeps a contract**: if no result is a failure, the caller has one answer for each
position, in order, and of each the contract holds in the memory that is left when all is done. -/
theorem run_contract {K : Nat → Stage τ α → σ → Prop} (pool : Pool) (hP : P.Contract count I K)
    (hgood : ∀ a, P.failed a = false) {s : σ} (hs : I s) (hwaiting : ∀ i < count, K i .waiting s)
    (schedule : Schedule) :
    let (answers, s') := pool.run P count schedule s
    List.Forall₂ (fun i a => K i (.done a) s') (List.range count) answers ∧ I s' := by
  have hupholds := Machine.run_inv (Machine.Upholds.step hP) schedule
    (Machine.upholds_init pool.workers_pos hs hwaiting)
  have hattended : ((Machine.init pool.workers s).run P count schedule).Attended count :=
    Machine.run_inv Machine.Attended.step schedule (Machine.attended_init pool.workers s)
  have hover : ((Machine.init pool.workers s).run P count schedule).Over P count :=
    Machine.over_run pool.workers_pos s schedule
  have hlength := hover.2.resolve_right fun hany => by simp [hgood] at hany
  exact ⟨forall₂_range hlength fun ha => hupholds.stages (.done (hattended.fetched ha)),
    hupholds.memory⟩

/-- What tasks promise holds of all answers. -/
theorem run_forall₂ {T : Nat → τ → Prop} {R : Nat → α → Prop} (pool : Pool)
    (hP : P.Promise count I T R) (hgood : ∀ a, P.failed a = false) {s : σ} (hs : I s)
    (schedule : Schedule) :
    List.Forall₂ R (List.range count) (pool.run P count schedule s).1 ∧
      I (pool.run P count schedule s).2 :=
  pool.run_contract hP.contract hgood hs (fun _ _ => trivial) schedule

end Pool

end BlobSigner
