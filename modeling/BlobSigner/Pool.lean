/-!
# A pool of workers

A caller hands in tasks, numbered from zero, one by one; idle workers take them up, oldest first; each
task goes on by atomic steps on a memory that all share. When all are handed in, the caller waits for
one after the other, and only then fetches their results, up to the first that holds a failure. Which
of these moves comes next is open: a schedule is any list of moves. When it has run out, the pool and
its caller go on by themselves, lowest worker first, until the caller has what it came for.
-/
namespace BlobSigner

/-- What a task is after a step. -/
inductive Progress (τ α : Type) where
  | running (task : τ)
  | finished (result : α)

/-- Tasks of one kind: how the one at a position starts and what its steps do to the memory `σ`. -/
structure Program (σ τ α : Type) where
  start : Nat → τ
  /-- One atomic step. The flag lets a weak compare-and-exchange fail without a reason. -/
  step : Nat → Bool → τ → σ → σ × Progress τ α
  /-- How far a task is from its result if no other comes between. -/
  rank : Nat → τ → σ → Nat
  maxRank : Nat
  /-- Whether a result holds a failure, which fetching it brings up again. -/
  failed : α → Bool
  rank_le : ∀ i t s, rank i t s ≤ maxRank
  rank_step : ∀ i t s s' t', step i false t s = (s', .running t') → rank i t' s' < rank i t s

/-- Tasks of a single step, which note the position in a memory that lists them. -/
def Program.ofFunction {ε α : Type} (f : Nat → Except ε α) :
    Program (List Nat) Unit (Except ε α) where
  start _ := ()
  step i _ _ ran := (ran ++ [i], .finished (f i))
  rank _ _ _ := 0
  maxRank := 0
  failed r := !r.isOk
  rank_le _ _ _ := Nat.le_refl 0
  rank_step _ _ _ _ _ h := by simp at h

namespace Pool

/-! ## Moves -/

inductive Move where
  /-- `Submit`: the caller hands in the next task. -/
  | submit
  /-- `RunWorker`: an idle worker takes up the oldest waiting task. -/
  | take (worker : Nat)
  /-- A busy worker's task makes a step. -/
  | advance (worker : Nat) (spurious : Bool)
  /-- The caller's next wait is over. -/
  | wait
  /-- The caller fetches the next result. -/
  | fetch
deriving DecidableEq, Repr

abbrev Schedule := List Move

structure Machine (σ τ α : Type) where
  /-- Tasks handed in so far. -/
  submitted : Nat
  /-- Positions that wait for a worker, oldest first. -/
  queue : List Nat
  /-- For each worker, the position and task that it is busy with. -/
  workers : List (Option (Nat × τ))
  /-- Results by position, newest first. -/
  results : List (Nat × α)
  memory : σ
  /-- Tasks that the caller has waited for. -/
  waited : Nat
  /-- Results that the caller has fetched, in the order of positions. -/
  fetched : List α

variable {σ τ α : Type}

namespace Machine

/-- Nothing handed in, all workers idle. -/
def init (workers : Nat) (s : σ) : Machine σ τ α :=
  ⟨0, [], List.replicate workers none, [], s, 0, []⟩

variable (P : Program σ τ α) (count : Nat)

/-- A step of worker `w`, which is busy with task `t` of position `i`. -/
def advance (m : Machine σ τ α) (w i : Nat) (t : τ) (spurious : Bool) : Machine σ τ α :=
  match P.step i spurious t m.memory with
  | (s, .running t') => { m with memory := s, workers := m.workers.set w (some (i, t')) }
  | (s, .finished a) =>
    { m with memory := s, workers := m.workers.set w none, results := (i, a) :: m.results }

/-- The caller waits when all tasks are handed in; a wait is over when the result is there. -/
def Awaited (m : Machine σ τ α) : Prop :=
  count ≤ m.submitted ∧ m.waited < count ∧ (m.results.lookup m.waited).isSome

instance (m : Machine σ τ α) : Decidable (m.Awaited count) := inferInstanceAs (Decidable (_ ∧ _))

/-- The caller fetches nothing before it has waited for all, and nothing after a failure. -/
def Fetching (m : Machine σ τ α) : Prop :=
  count ≤ m.waited ∧ m.fetched.length < count ∧ m.fetched.any P.failed = false

instance (m : Machine σ τ α) : Decidable (m.Fetching P count) := inferInstanceAs (Decidable (_ ∧ _))

/-- What the caller fetches next. -/
def fetch? (m : Machine σ τ α) : Option α :=
  if m.Fetching P count then m.results.lookup m.fetched.length else none

/-- A move that is not open leaves all as it is. -/
def move (m : Machine σ τ α) : Move → Machine σ τ α
  | .submit =>
    if m.submitted < count then
      { m with submitted := m.submitted + 1, queue := m.queue ++ [m.submitted] }
    else m
  | .take w =>
    match m.workers[w]?, m.queue with
    | some none, i :: rest =>
      { m with queue := rest, workers := m.workers.set w (some (i, P.start i)) }
    | _, _ => m
  | .advance w spurious =>
    match m.workers[w]? with
    | some (some (i, t)) => m.advance P w i t spurious
    | _ => m
  | .wait => if m.Awaited count then { m with waited := m.waited + 1 } else m
  | .fetch =>
    match m.fetch? P count with
    | some a => { m with fetched := m.fetched ++ [a] }
    | none => m

/-! ## Going on without a schedule -/

/-- The lowest busy worker, with its position and task. -/
def busy? : List (Option (Nat × τ)) → Option (Nat × Nat × τ)
  | [] => none
  | some (i, t) :: _ => some (0, i, t)
  | none :: r => (busy? r).map fun (w, i, t) => (w + 1, i, t)

/-- The caller's next move: it hands in, it waits, it fetches. -/
def callerNext? (m : Machine σ τ α) : Option Move :=
  if m.submitted < count then some .submit
  else if m.Awaited count then some .wait
  else if (m.fetch? P count).isSome then some .fetch
  else none

/-- The lowest busy worker goes on; else a waiting task is taken up; else it is the caller's turn. -/
def next? (m : Machine σ τ α) : Option Move :=
  match busy? m.workers with
  | some (w, _, _) => some (.advance w false)
  | none =>
    match m.queue, m.workers with
    | _ :: _, _ :: _ => some (.take 0)
    | _, _ => m.callerNext? P count

def busyCount (workers : List (Option (Nat × τ))) : Nat := (workers.filter Option.isSome).length

/-- Steps that the task which goes on next still has before it. -/
def rank (m : Machine σ τ α) : Nat :=
  match busy? m.workers with
  | some (_, i, t) => P.rank i t m.memory
  | none => 0

/-- Three units for a task not handed in, two for one that waits, one for one at work, and one more
for each wait and each fetch that the caller has before it. -/
def units (m : Machine σ τ α) : Nat :=
  (count - m.submitted) * 3 + m.queue.length * 2 + busyCount m.workers +
    ((count - m.waited) + (count - m.fetched.length))

/-- A bound on the moves that are left. -/
def toGo (m : Machine σ τ α) : Nat := m.units count * (P.maxRank + 1) + m.rank P

theorem rank_le (m : Machine σ τ α) : m.rank P ≤ P.maxRank := by
  unfold rank
  split
  · exact P.rank_le ..
  · exact Nat.zero_le _

theorem toGo_lt_of_units_lt {m m' : Machine σ τ α} (h : m'.units count < m.units count) :
    m'.toGo P count < m.toGo P count := by
  have := Nat.mul_le_mul_right (P.maxRank + 1) (show m'.units count + 1 ≤ m.units count from h)
  have := rank_le P m'
  have := Nat.add_one_mul (m'.units count) (P.maxRank + 1)
  unfold toGo
  omega

theorem busy?_eq_some {workers : List (Option (Nat × τ))} {w i : Nat} {t : τ}
    (h : busy? workers = some (w, i, t)) :
    workers[w]? = some (some (i, t)) ∧
      (∀ t', busy? (workers.set w (some (i, t'))) = some (w, i, t')) ∧
      (∀ t', busyCount (workers.set w (some (i, t'))) = busyCount workers) ∧
      busyCount (workers.set w none) < busyCount workers := by
  induction workers generalizing w with
  | nil => simp [busy?] at h
  | cons o r ih =>
    cases o with
    | some p =>
      simp only [busy?, Option.some.injEq, Prod.mk.injEq] at h
      obtain ⟨rfl, rfl, rfl⟩ := h
      simp [busy?, busyCount]
    | none =>
      simp only [busy?, Option.map_eq_some_iff, Prod.mk.injEq] at h
      obtain ⟨⟨w', i', t'⟩, hr, rfl, rfl, rfl⟩ := h
      have := ih hr
      simp_all [busy?, busyCount]

theorem eq_none_of_busy?_eq_none {workers : List (Option (Nat × τ))} (h : busy? workers = none) :
    ∀ o ∈ workers, o = none := by
  induction workers with
  | nil => simp
  | cons o r ih =>
    cases o with
    | some p => simp [busy?] at h
    | none =>
      simp only [busy?, Option.map_eq_none_iff] at h
      intro o ho
      rcases List.mem_cons.mp ho with rfl | ho
      · rfl
      · exact ih h o ho

theorem lt_of_fetch?_isSome {m : Machine σ τ α} (h : (m.fetch? P count).isSome) :
    m.fetched.length < count := by
  unfold fetch? at h
  split at h
  · exact (‹m.Fetching P count›).2.1
  · cases h

theorem toGo_callerNext?_lt {m : Machine σ τ α} {v : Move} (h : m.callerNext? P count = some v) :
    (m.move P count v).toGo P count < m.toGo P count := by
  apply toGo_lt_of_units_lt
  unfold callerNext? at h
  split at h
  · rename_i hlt
    cases h
    simp only [move, hlt, if_true, units, List.length_append, List.length_singleton]
    omega
  · split at h
    · rename_i hwait
      cases h
      have := hwait.2.1
      simp only [move, hwait, if_true, units]
      omega
    · split at h
      · rename_i hfetch
        cases h
        have := lt_of_fetch?_isSome P count hfetch
        obtain ⟨a, ha⟩ := Option.isSome_iff_exists.1 hfetch
        simp only [move, ha, units, List.length_append, List.length_singleton]
        omega
      · cases h

theorem toGo_move_lt {m : Machine σ τ α} {v : Move} (h : m.next? P count = some v) :
    (m.move P count v).toGo P count < m.toGo P count := by
  unfold next? at h
  split at h
  · rename_i w i t hb
    cases h
    obtain ⟨hw, hset, hcount, hidle⟩ := busy?_eq_some hb
    simp only [move, hw, advance]
    split
    · rename_i s t' hs
      have := P.rank_step i t m.memory s t' hs
      simp only [toGo, units, rank, hset, hcount, hb]
      omega
    · apply toGo_lt_of_units_lt
      simp only [units]
      omega
  · rename_i hb
    split at h
    · rename_i i rest o ws hq hws
      cases h
      have ho : o = none := eq_none_of_busy?_eq_none hb o (by simp [hws])
      subst ho
      apply toGo_lt_of_units_lt
      simp [move, hws, hq, units, busyCount]
      omega
    · exact toGo_callerNext?_lt P count h

/-- Every task that can get a result gets it, and the caller goes as far as it can. -/
def settle (m : Machine σ τ α) : Machine σ τ α :=
  match _ : m.next? P count with
  | some v => settle (m.move P count v)
  | none => m
termination_by m.toGo P count
decreasing_by exact toGo_move_lt P count ‹_›

/-- First the moves of the schedule, then as the pool and its caller see fit. -/
def run (schedule : Schedule) (m : Machine σ τ α) : Machine σ τ α :=
  (schedule.foldl (move P count) m).settle P count

end Machine

end Pool

/-! ## The pool -/

/-- `ComputePool`. -/
structure Pool where
  workers : Nat
  workers_pos : 0 < workers

namespace Pool

/-- Why there is no pool with this many workers. -/
inductive SizeError where
  | zero
deriving DecidableEq, Repr

def SizeError.message : SizeError → String
  | .zero => "ComputePool worker_count must be > 0"

def ofWorkers (workers : Nat) : Except SizeError Pool :=
  if h : 0 < workers then .ok ⟨workers, h⟩ else .error .zero

/-- `ResolveWorkerCount`: as many workers as asked for, else one for each of the machine's own
threads. -/
def resolve (asked : Option Nat) (hardware : Nat) : Pool :=
  match asked with
  | some (n + 1) => ⟨n + 1, Nat.succ_pos n⟩
  | _ => ⟨max 1 hardware, by omega⟩

variable {σ τ α ε : Type}

/-- `MapIndexed`: what the caller has fetched of the tasks `0` to `count - 1`, and the memory when it
is over. -/
def run (pool : Pool) (P : Program σ τ α) (count : Nat) (schedule : Schedule) (s : σ) :
    List α × σ :=
  let m := (Machine.init pool.workers s).run P count schedule
  (m.fetched, m.memory)

/-- All good results, or the first failure in the order of positions: a fetched failure is thrown. -/
def gather : List (Except ε α) → Except ε (List α)
  | [] => .ok []
  | .error e :: _ => .error e
  | .ok a :: r => (gather r).map (a :: ·)

/-- `MapIndexed` of a function that may fail. -/
def mapIndexed (pool : Pool) (count : Nat) (f : Nat → Except ε α) (schedule : Schedule) :
    Except ε (List α) × List Nat :=
  let (results, ran) := pool.run (.ofFunction f) count schedule []
  (gather results, ran)

end Pool

end BlobSigner
