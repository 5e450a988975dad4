import BlobSigner.Proofs.Pool.Runs
/-!
# A function at every position

The pool makes one task for each position of a function. Whatever the schedule, a task that has ended
has noted its position, once, and its result is the function's value (`Recorded`). So results for all
positions mean that all tasks have run, and at whatever moment that is, what they are gathered into is
what the function alone decides. The caller fetches nothing, and so brings up no failure, before that
moment; what it has fetched when the call is over is gathered into the same
(`mapIndexed_any_schedule`).
-/
namespace BlobSigner.Pool

variable {α ε : Type}

/-! ## Gathering -/

theorem gather_map_ok (as : List α) : gather (as.map (Except.ok : α → Except ε α)) = .ok as := by
  induction as with
  | nil => rfl
  | cons a as ih =>
    rw [List.map_cons, gather, ih]
    rfl

theorem map_ok_of_gather {l : List (Except ε α)} {as : List α} (h : gather l = .ok as) :
    l = as.map .ok := by
  induction l generalizing as with
  | nil =>
    cases h
    rfl
  | cons x l ih =>
    cases x with
    | error e => cases h
    | ok a =>
      rw [gather] at h
      cases hl : gather l with
      | error e =>
        rw [hl] at h
        cases h
      | ok bs =>
        rw [hl] at h
        cases h
        rw [ih hl]
        rfl

theorem gather_ok_cons_eq_error_iff {a : α} {l : List (Except ε α)} {e : ε} :
    gather (.ok a :: l) = .error e ↔ gather l = .error e := by
  rw [gather]
  cases gather l <;> simp [Except.map]

/-- The failure is that of the lowest position that fails. -/
theorem gather_eq_error_iff {l : List (Except ε α)} {e : ε} :
    gather l = .error e ↔ ∃ i : Nat, l[i]? = some (Except.error e) ∧
      ∀ j < i, ∃ a : α, l[j]? = some (Except.ok a) := by
  induction l with
  | nil => simp [gather]
  | cons x l ih =>
    cases x with
    | error e' =>
      constructor
      · intro h
        cases h
        exact ⟨0, rfl, fun j hj => absurd hj (Nat.not_lt_zero j)⟩
      · rintro ⟨i, hi, hbelow⟩
        cases i with
        | zero =>
          cases hi
          rfl
        | succ i =>
          obtain ⟨a, ha⟩ := hbelow 0 (Nat.succ_pos i)
          cases ha
    | ok a =>
      rw [gather_ok_cons_eq_error_iff, ih]
      constructor
      · rintro ⟨i, hi, hbelow⟩
        refine ⟨i + 1, hi, fun j hj => ?_⟩
        cases j with
        | zero => exact ⟨a, rfl⟩
        | succ j => exact hbelow j (Nat.lt_of_succ_lt_succ hj)
      · rintro ⟨i, hi, hbelow⟩
        cases i with
        | zero => cases hi
        | succ i => exact ⟨i, hi, fun j hj => hbelow (j + 1) (Nat.succ_lt_succ hj)⟩

theorem gather_eq_ok_iff {l : List (Except ε α)} {as : List α} :
    gather l = .ok as ↔ l = as.map .ok :=
  ⟨map_ok_of_gather, fun h => h ▸ gather_map_ok as⟩

/-- What comes after a failure does not count. -/
theorem gather_append_of_error {l : List (Except ε α)} {e : ε} (h : gather l = .error e)
    (rest : List (Except ε α)) : gather (l ++ rest) = .error e := by
  induction l with
  | nil => cases h
  | cons x l ih =>
    cases x with
    | error e' => exact h
    | ok a => exact gather_ok_cons_eq_error_iff.2 (ih (gather_ok_cons_eq_error_iff.1 h))

theorem exists_gather_eq_error {f : Nat → Except ε α} {l : List (Except ε α)}
    (h : l.any (Program.ofFunction f).failed = true) : ∃ e, gather l = .error e := by
  cases hl : gather l with
  | error e => exact ⟨e, rfl⟩
  | ok as =>
    rw [gather_eq_ok_iff.1 hl] at h
    simp [Program.ofFunction, Except.isOk, Except.toBool] at h

/-- The failure among the values of a function. -/
theorem gather_map_range_eq_error_iff {f : Nat → Except ε α} {count : Nat} {e : ε} :
    gather ((List.range count).map f) = .error e ↔
      ∃ i < count, f i = .error e ∧ ∀ j < i, ∃ a, f j = .ok a := by
  have hvalue : ∀ i x, ((List.range count).map f)[i]? = some x ↔ i < count ∧ f i = x := by
    intro i x
    rw [List.getElem?_map]
    by_cases hi : i < count <;> simp [hi]
  simp only [gather_eq_error_iff, hvalue]
  constructor
  · rintro ⟨i, ⟨hi, he⟩, hbelow⟩
    exact ⟨i, hi, he, fun j hj => (hbelow j hj).imp fun a ha => ha.2⟩
  · rintro ⟨i, hi, he, hbelow⟩
    exact ⟨i, ⟨hi, he⟩, fun j hj => (hbelow j hj).imp fun a ha => ⟨Nat.lt_trans hj hi, ha⟩⟩

/-! ## What a run records -/

namespace Machine

variable {f : Nat → Except ε α} {count : Nat} {m m' : Machine (List Nat) Unit (Except ε α)}

/-- Every position handed in waits, is at work or has run, each that has run has the function's value as
its result, and the caller has seen no more than that. -/
structure Recorded (count : Nat) (f : Nat → Except ε α)
    (m : Machine (List Nat) Unit (Except ε α)) : Prop where
  accounted : m.Accounted count
  attended : m.Attended count
  ran : m.memory = (m.results.map Prod.fst).reverse
  values : ∀ {i b}, (i, b) ∈ m.results → b = f i

theorem recorded_init {n : Nat} (hn : 0 < n) :
    (init n [] : Machine (List Nat) Unit (Except ε α)).Recorded count f :=
  ⟨accounted_init hn [], attended_init n [], rfl, fun h => nomatch h⟩

theorem Recorded.step (h : m.Recorded count f) (hs : Step (.ofFunction f) count m m') :
    m'.Recorded count f := by
  have hacc := h.accounted.step hs
  have hatt := h.attended.step hs
  cases hs with
  | submit _ => exact ⟨hacc, hatt, h.ran, h.values⟩
  | take _ _ => exact ⟨hacc, hatt, h.ran, h.values⟩
  | running _ hstep => cases hstep
  | finished _ hstep =>
    cases hstep
    refine ⟨hacc, hatt, ?_, fun {j b} hj => ?_⟩
    · rw [h.ran, List.map_cons, List.reverse_cons]
    · rcases List.mem_cons.1 hj with e | hj
      · cases e
        rfl
      · exact h.values hj
  | wait _ => exact ⟨hacc, hatt, h.ran, h.values⟩
  | fetch _ => exact ⟨hacc, hatt, h.ran, h.values⟩

/-- Every task has its result: what a caller waits for. -/
def Ready (count : Nat) (m : Machine (List Nat) Unit (Except ε α)) : Prop :=
  ∀ i < count, (m.results.lookup i).isSome

/-- The results that are there, in the order of positions. -/
def answers (count : Nat) (m : Machine (List Nat) Unit (Except ε α)) : List (Except ε α) :=
  (List.range count).filterMap fun i => m.results.lookup i

theorem Recorded.perm_memory (h : m.Recorded count f) :
    m.memory.Perm (m.results.map Prod.fst) := by
  rw [h.ran]
  exact List.reverse_perm _

theorem Recorded.perm_submitted (h : m.Recorded count f) :
    (m.queue ++ atWork m.workers ++ m.memory).Perm (List.range m.submitted) :=
  (h.perm_memory.append_left _).trans h.accounted.perm

theorem Recorded.mem_memory_iff (h : m.Recorded count f) {i : Nat} :
    i ∈ m.memory ↔ (m.results.lookup i).isSome := by
  rw [h.perm_memory.mem_iff, lookup_isSome_iff]

theorem Recorded.ready_iff (h : m.Recorded count f) :
    m.Ready count ↔ m.memory.Perm (List.range count) := by
  have hnodup : m.memory.Nodup :=
    (List.nodup_append.1 (h.perm_submitted.nodup_iff.2 List.nodup_range)).2.1
  have hlt : ∀ i ∈ m.memory, i < count := fun i hi =>
    Nat.lt_of_lt_of_le
      (List.mem_range.1 (h.perm_submitted.subset (List.mem_append_right _ hi)))
      h.accounted.submitted_le
  constructor
  · intro hready
    refine (List.perm_ext_iff_of_nodup hnodup List.nodup_range).2 fun i => ?_
    rw [List.mem_range]
    exact ⟨hlt i, fun hi => h.mem_memory_iff.2 (hready i hi)⟩
  · intro hperm i hi
    exact h.mem_memory_iff.1 (hperm.symm.subset (List.mem_range.2 hi))

/-- With all results there, the answers are the values in the order of positions. -/
theorem Recorded.answers_eq (h : m.Recorded count f) (hready : m.Ready count) :
    m.answers count = (List.range count).map f := by
  rw [answers, ← List.filterMap_eq_map]
  refine List.filterMap_congr fun i hi => ?_
  obtain ⟨b, hb⟩ := Option.isSome_iff_exists.1 (hready i (List.mem_range.1 hi))
  rw [hb, h.values (mem_of_lookup_eq_some hb)]
  rfl

/-! ## What the caller has of it -/

/-- Who has waited for all finds all results there. -/
theorem Recorded.ready_of_waited (h : m.Recorded count f) (hwaited : count ≤ m.waited) :
    m.Ready count :=
  fun i hi => lookup_isSome_iff.2 (h.attended.waited i (Nat.lt_of_lt_of_le hi hwaited))

theorem Recorded.ready_of_over (h : m.Recorded count f) (hover : m.Over (.ofFunction f) count) :
    m.Ready count :=
  h.ready_of_waited (Nat.le_of_eq hover.1.symm)

/-- **The caller fetches nothing before all tasks have run**, so it brings up no failure either. -/
theorem Recorded.ready_of_fetch (h : m.Recorded count f) {b : Except ε α}
    (hfetch : m.fetch? (.ofFunction f) count = some b) : m.Ready count :=
  h.ready_of_waited (of_fetch?_eq_some hfetch).1.1

theorem Recorded.fetched_prefix (h : m.Recorded count f) :
    m.fetched <+: (List.range count).map f := by
  refine List.prefix_iff_getElem?.2 fun i hi => ?_
  have hlt : i < count := Nat.lt_of_lt_of_le hi h.attended.fetched_le
  have hvalue := h.values (h.attended.fetched (List.getElem?_eq_getElem hi))
  rw [hvalue, List.getElem?_map, List.getElem?_range hlt]
  rfl

/-- A caller that has come to a failure, or to the end, needs no more results than it has. -/
theorem Recorded.gather_fetched (h : m.Recorded count f) (hover : m.Over (.ofFunction f) count) :
    gather m.fetched = gather ((List.range count).map f) := by
  obtain ⟨rest, hrest⟩ := h.fetched_prefix
  rcases hover.2 with hlength | hfailed
  · have hall : m.fetched = (List.range count).map f :=
      h.fetched_prefix.eq_of_length (by simpa using hlength)
    rw [hall]
  · obtain ⟨e, he⟩ := exists_gather_eq_error hfailed
    rw [← hrest, gather_append_of_error he, he]

end Machine

/-! ## Any schedule -/

/-- **The values in order, or the first failure, whatever the schedule.** A run ends with its call, and
every position has then run once. At every moment before, a position handed in waits, is at work or has
run, and is there once; what the caller waits for is there just when all positions have run, and it is
then what the call gives. No result is fetched before that moment, nor is the call over. -/
theorem mapIndexed_any_schedule (pool : Pool) (count : Nat) (f : Nat → Except ε α)
    (schedule : Schedule) :
    let call := pool.mapIndexed count f schedule
    let start : Machine (List Nat) Unit (Except ε α) := .init pool.workers []
    (start.run (.ofFunction f) count schedule).Over (.ofFunction f) count ∧
      call.2.Perm (List.range count) ∧
      (∀ as, call.1 = .ok as ↔ (List.range count).map f = as.map .ok) ∧
      (∀ e, call.1 = .error e ↔ ∃ i < count, f i = .error e ∧ ∀ j < i, ∃ a, f j = .ok a) ∧
      ∀ moves : Schedule,
        let m := moves.foldl (Machine.move (.ofFunction f) count) start
        (m.queue ++ Machine.atWork m.workers ++ m.memory).Perm (List.range m.submitted) ∧
          m.submitted ≤ count ∧
          (m.Ready count ↔ m.memory.Perm (List.range count)) ∧
          (m.Ready count → gather (m.answers count) = call.1) ∧
          (∀ b, m.fetch? (.ofFunction f) count = some b → m.Ready count) ∧
          (m.Over (.ofFunction f) count → m.Ready count ∧ gather m.fetched = call.1) := by
  intro call start
  have hstart : start.Recorded count f := Machine.recorded_init pool.workers_pos
  have hend := Machine.run_inv Machine.Recorded.step schedule hstart
  have hover : (start.run (.ofFunction f) count schedule).Over (.ofFunction f) count :=
    Machine.over_run pool.workers_pos [] schedule
  have hcall : call.1 = gather ((List.range count).map f) := hend.gather_fetched hover
  refine ⟨hover, hend.ready_iff.1 (hend.ready_of_over hover), fun as => ?_, fun e => ?_,
    fun moves => ?_⟩
  · rw [hcall, gather_eq_ok_iff]
  · rw [hcall, gather_map_range_eq_error_iff]
  · have h := Machine.moves_inv Machine.Recorded.step moves hstart
    refine ⟨h.perm_submitted, h.accounted.submitted_le, h.ready_iff, fun hready => ?_,
      fun b => h.ready_of_fetch, fun hm => ⟨h.ready_of_over hm, ?_⟩⟩
    · rw [hcall, h.answers_eq hready]
    · rw [hcall, h.gather_fetched hm]

/-- Position 2 fails before position 1 has run. The caller is held at its second wait and has fetched
nothing, and the call gives the failure of position 1. -/
theorem mapIndexed_any_schedule_later_first :
    let f : Nat → Except Nat Nat := fun i => if i = 0 then .ok 7 else .error i
    let schedule : Schedule :=
      [.submit, .submit, .submit, .take 0, .advance 0 false, .take 0, .take 1, .advance 1 false,
        .wait, .wait, .fetch]
    let m := schedule.foldl (Machine.move (.ofFunction f) 3) (.init 2 [])
    (m.memory = [0, 2] ∧ m.waited = 1 ∧ m.fetched = []) ∧
      ((⟨2, by decide⟩ : Pool).mapIndexed 3 f schedule).1 = .error 1 := by
  refine ⟨⟨rfl, rfl, rfl⟩, ((mapIndexed_any_schedule _ _ _ _).2.2.2.1 1).2 ⟨1, by decide, rfl, ?_⟩⟩
  intro j hj
  rw [Nat.lt_one_iff.1 hj]
  exact ⟨7, rfl⟩

end BlobSigner.Pool
