import BlobSigner.Proofs.Pool.Runs
/-!
# A pool of one worker

With a single worker the tasks run one after the other in the order of positions, whatever the
schedule: the queue is first in, first out, and a task is taken up only when the one before it has
ended. So what one task leaves in the memory is what the next one finds (`run_relay`).
-/
namespace BlobSigner

variable {σ τ α : Type}

/-- What a program hands on from task to task when no two are at work at a time: `J i` of the memory
before the task of position `i`, and `T i` of that task and the memory while it is at work. -/
structure Program.Relay (P : Program σ τ α) (count : Nat) (J : Nat → σ → Prop)
    (T : Nat → τ → σ → Prop) : Prop where
  start : ∀ {i s}, i < count → J i s → T i (P.start i) s
  running : ∀ {i t t' spurious s s'}, i < count → T i t s →
    P.step i spurious t s = (s', .running t') → T i t' s'
  finished : ∀ {i t spurious s s' a}, i < count → T i t s →
    P.step i spurious t s = (s', .finished a) → J (i + 1) s'

namespace Pool.Machine

variable {P : Program σ τ α} {count : Nat} {m m' : Machine σ τ α}
variable {J : Nat → σ → Prop} {T : Nat → τ → σ → Prop}

/-- The single worker has ended the tasks below a position and is idle, or busy with the task of the
position; the tasks handed in after that wait in order. -/
inductive InTurn (count : Nat) (J : Nat → σ → Prop) (T : Nat → τ → σ → Prop) :
    Machine σ τ α → Prop where
  | idle {m : Machine σ τ α} (waiting next : Nat) : next + waiting ≤ count →
      m.submitted = next + waiting → m.queue = List.range' next waiting → m.workers = [none] →
      J next m.memory → InTurn count J T m
  | busy {m : Machine σ τ α} {t : τ} (waiting current : Nat) : current + 1 + waiting ≤ count →
      m.submitted = current + 1 + waiting → m.queue = List.range' (current + 1) waiting →
      m.workers = [some (current, t)] → T current t m.memory → InTurn count J T m

/-- What stands at a place of a list of one. -/
theorem eq_of_getElem?_singleton {β : Type} {o o' : β} {w : Nat} (h : [o][w]? = some o') :
    w = 0 ∧ o = o' := by
  rw [List.getElem?_singleton] at h
  split at h
  · exact ⟨‹_›, Option.some.inj h⟩
  · cases h

/-- Every move keeps the turn. -/
theorem InTurn.step (hP : P.Relay count J T) (h : m.InTurn count J T) (hs : Step P count m m') :
    m'.InTurn count J T := by
  cases h with
  | idle waiting next hle hsubmitted hqueue hworkers hmemory =>
    cases hs with
    | submit hlt =>
      refine .idle (waiting + 1) next (by omega) (congrArg (· + 1) hsubmitted) ?_ hworkers hmemory
      rw [hqueue, hsubmitted, List.range'_1_concat]
    | @take w i rest hw hq =>
      rw [hworkers] at hw
      obtain ⟨rfl, -⟩ := eq_of_getElem?_singleton hw
      cases waiting with
      | zero =>
        rw [hqueue] at hq
        cases hq
      | succ waiting =>
        rw [hqueue, List.range'_succ] at hq
        obtain ⟨rfl, rfl⟩ := List.cons.inj hq
        exact .busy waiting next (by omega) (by rw [hsubmitted]; omega) rfl (by rw [hworkers]; rfl)
          (hP.start (by omega) hmemory)
    | running hw _ =>
      rw [hworkers] at hw
      cases (eq_of_getElem?_singleton hw).2
    | finished hw _ =>
      rw [hworkers] at hw
      cases (eq_of_getElem?_singleton hw).2
    | wait _ => exact .idle waiting next hle hsubmitted hqueue hworkers hmemory
    | fetch _ => exact .idle waiting next hle hsubmitted hqueue hworkers hmemory
  | busy waiting current hle hsubmitted hqueue hworkers htask =>
    cases hs with
    | submit hlt =>
      refine .busy (waiting + 1) current (by omega) (congrArg (· + 1) hsubmitted) ?_ hworkers htask
      rw [hqueue, hsubmitted, List.range'_1_concat]
    | take hw _ =>
      rw [hworkers] at hw
      cases (eq_of_getElem?_singleton hw).2
    | running hw hstep =>
      rw [hworkers] at hw
      obtain ⟨rfl, heq⟩ := eq_of_getElem?_singleton hw
      cases heq
      exact .busy waiting current hle hsubmitted hqueue (by rw [hworkers]; rfl)
        (hP.running (by omega) htask hstep)
    | finished hw hstep =>
      rw [hworkers] at hw
      obtain ⟨rfl, heq⟩ := eq_of_getElem?_singleton hw
      cases heq
      exact .idle waiting (current + 1) hle hsubmitted hqueue (by rw [hworkers]; rfl)
        (hP.finished (by omega) htask hstep)
    | wait _ => exact .busy waiting current hle hsubmitted hqueue hworkers htask
    | fetch _ => exact .busy waiting current hle hsubmitted hqueue hworkers htask

/-- Without a move left, all tasks have had their turn. -/
theorem InTurn.memory (h : m.InTurn count J T) (hn : m.next? P count = none) :
    J count m.memory := by
  cases h with
  | idle waiting next hle hsubmitted hqueue hworkers hmemory =>
    obtain ⟨-, hempty, hall, -, -⟩ := of_next?_eq_none hn (by simp [hworkers])
    have hwaiting : waiting = 0 := by simpa [hempty] using congrArg List.length hqueue.symm
    have hlast : next = count := by omega
    exact hlast ▸ hmemory
  | busy waiting current hle hsubmitted hqueue hworkers htask =>
    have hidle := (of_next?_eq_none hn (by simp [hworkers])).1
    rw [hworkers] at hidle
    cases hidle

end Pool.Machine

namespace Pool

variable {P : Program σ τ α} {count : Nat} {J : Nat → σ → Prop} {T : Nat → τ → σ → Prop}

/-- **One worker makes one task after the other**, so in the end the memory is as after the last
position, whatever the schedule. -/
theorem run_relay (pool : Pool) (h : pool.workers = 1) (hP : P.Relay count J T) {s : σ} (hs : J 0 s)
    (schedule : Schedule) : J count (pool.run P count schedule s).2 := by
  have hstart : (Machine.init pool.workers s : Machine σ τ α).InTurn count J T := by
    rw [h]
    exact .idle 0 0 (Nat.zero_le _) rfl rfl rfl hs
  exact (Machine.run_inv (Machine.InTurn.step hP) schedule hstart).memory (Machine.next?_run schedule)

end Pool

end BlobSigner
