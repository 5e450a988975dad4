import BlobSigner.Proofs.Pool.Runs
import BlobSigner.SliceCheck.Scan
/-!
# Every schedule finds the lowest fault

The tasks of a slice check skip work on the word of a board that others write on at any time. What
makes this safe is one invariant: a position that stands on the board has a fault
(`Board.Truthful`). So a task that gives way does so to a lower fault, the lowest fault never gives
way, and the pool's verdict is the one of the plain scan: `verify_any_schedule`.
-/
namespace BlobSigner

theorem Finding.rejection?_eq_none_iff {f : Finding} : f.rejection? = none ↔ f = .passed := by
  cases f <;> simp [rejection?]

namespace SliceCheck

variable (check : SliceCheck) (root : StorageRoot) (commitment : G1)

/-! ## Faults of positions -/

/-- What is wrong with the slice of a position. The index is looked at first. -/
def fault? (position : Nat) (slice : Slice) (expected : UInt64) : Option Rejection :=
  if slice.index ≠ expected then some (.sliceIndex position slice.index expected)
  else match check slice commitment root with
    | .accepted => none
    | .refused reason => some (.sliceProof slice.index reason)
    | .crashed reason => some (.sliceProof slice.index (clip reason))

/-- The lowest fault of positions `i`, `i + 1`, … -/
def firstFault? (i : Nat) : List (Slice × UInt64) → Option Rejection
  | [] => none
  | (slice, expected) :: rest =>
    match fault? check root commitment i slice expected with
    | some cause => some cause
    | none => firstFault? (i + 1) rest

variable {check root commitment}

theorem fault?_eq_none_iff {i : Nat} {slice : Slice} {expected : UInt64} :
    fault? check root commitment i slice expected = none ↔
      slice.index = expected ∧ check slice commitment root = .accepted := by
  unfold fault?
  split
  · rename_i h
    simp [h]
  · rename_i h
    have hindex : slice.index = expected := not_not.1 h
    split <;> rename_i hc <;> simp [hindex, hc]

theorem firstFault?_eq_none_iff {i : Nat} {pairs : List (Slice × UInt64)} :
    firstFault? check root commitment i pairs = none ↔
      ∀ p ∈ pairs, p.1.index = p.2 ∧ check p.1 commitment root = .accepted := by
  induction pairs generalizing i with
  | nil => simp [firstFault?]
  | cons p rest ih =>
    obtain ⟨slice, expected⟩ := p
    have hhead := @fault?_eq_none_iff check root commitment i slice expected
    simp only [firstFault?, List.forall_mem_cons, ← ih (i := i + 1), ← hhead]
    split <;> rename_i hf <;> simp [hf]

/-- The lowest fault has none before it. -/
theorem firstFault?_eq_some_iff {i : Nat} {pairs : List (Slice × UInt64)} {cause : Rejection} :
    firstFault? check root commitment i pairs = some cause ↔
      ∃ before slice expected after, pairs = before ++ (slice, expected) :: after ∧
        (∀ p ∈ before, p.1.index = p.2 ∧ check p.1 commitment root = .accepted) ∧
        fault? check root commitment (i + before.length) slice expected = some cause := by
  induction pairs generalizing i with
  | nil => simp [firstFault?]
  | cons p rest ih =>
    obtain ⟨slice, expected⟩ := p
    simp only [firstFault?]
    cases hf : fault? check root commitment i slice expected with
    | some found =>
      simp only [Option.some.injEq]
      constructor
      · rintro rfl
        exact ⟨[], slice, expected, rest, rfl, by simp, by simpa using hf⟩
      · rintro ⟨before, s, e, after, heq, hgood, hs⟩
        cases before with
        | nil =>
          obtain ⟨⟨rfl, rfl⟩, rfl⟩ : (slice = s ∧ expected = e) ∧ rest = after := by
            simpa using heq
          exact Option.some.inj (hf.symm.trans (by simpa using hs))
        | cons q before =>
          obtain ⟨rfl, -⟩ := List.cons.inj heq
          have hnone := (fault?_eq_none_iff (i := i)).2 (hgood (slice, expected) List.mem_cons_self)
          rw [hnone] at hf
          cases hf
    | none =>
      simp only [ih]
      constructor
      · rintro ⟨before, s, e, after, rfl, hgood, hs⟩
        refine ⟨(slice, expected) :: before, s, e, after, rfl, ?_, ?_⟩
        · exact List.forall_mem_cons.2 ⟨fault?_eq_none_iff.1 hf, hgood⟩
        · rw [List.length_cons, ← hs]
          congr 1
          omega
      · rintro ⟨before, s, e, after, heq, hgood, hs⟩
        cases before with
        | nil =>
          obtain ⟨⟨rfl, rfl⟩, rfl⟩ : (slice = s ∧ expected = e) ∧ rest = after := by simpa using heq
          simp [hf] at hs
        | cons q before =>
          obtain ⟨rfl, rfl⟩ := List.cons.inj heq
          refine ⟨before, s, e, after, rfl, fun p hp => hgood p (by simp [hp]), ?_⟩
          rw [← hs, List.length_cons]
          congr 1
          omega

/-- The plain scan stops at the lowest fault. -/
theorem scan_fst (i : Nat) (pairs : List (Slice × UInt64)) :
    (scan check root commitment i pairs).1 =
      match firstFault? check root commitment i pairs with
      | some cause => .error cause
      | none => .ok () := by
  induction pairs generalizing i with
  | nil => rfl
  | cons p rest ih =>
    obtain ⟨slice, expected⟩ := p
    unfold scan firstFault? fault?
    by_cases h : slice.index ≠ expected
    · simp only [if_pos h]
    · simp only [if_neg h]
      cases check slice commitment root with
      | accepted => exact ih (i + 1)
      | refused reason => rfl
      | crashed reason => rfl

/-! ## What a step can do -/

section
variable (check root commitment) (pairs : List (Slice × UInt64))

/-- The steps of the task of position `i`, from the board `b`. -/
inductive Step (i : Nat) (b : Board) : Phase → Board → Progress Phase Finding → Prop where
  | skip : b.firstFailure < i → Step i b .fresh b (.running (.returning .passed))
  | look : i ≤ b.firstFailure → Step i b .fresh b (.running .inspecting)
  | absent : pairs[i]? = none → Step i b .inspecting b (.running (.returning .passed))
  | pass {slice : Slice} {expected : UInt64} : pairs[i]? = some (slice, expected) →
      (inspect check root commitment i slice expected).1 = .passed →
      Step i b .inspecting
        { b with calls := b.calls ++ (inspect check root commitment i slice expected).2 }
        (.running (.returning .passed))
  | fail {slice : Slice} {expected : UInt64} : pairs[i]? = some (slice, expected) →
      (inspect check root commitment i slice expected).1 ≠ .passed →
      Step i b .inspecting
        { b with calls := b.calls ++ (inspect check root commitment i slice expected).2 }
        (.running (.reporting (inspect check root commitment i slice expected).1))
  | report {f : Finding} : Step i b (.reporting f) b (.running (contend i b f))
  | exchange {f : Finding} : Step i b (.exchanging b.firstFailure f)
      { b with firstFailure := i } (.running (.returning f))
  | retry {current : Nat} {f : Finding} :
      Step i b (.exchanging current f) b (.running (contend i b f))
  | finish {f : Finding} : Step i b (.returning f) b (.finished f)

end

theorem step_of_eq {pairs : List (Slice × UInt64)} {i : Nat} {spurious : Bool} {t : Phase}
    {b b' : Board} {p : Progress Phase Finding}
    (h : step check root commitment pairs i spurious t b = (b', p)) :
    Step check root commitment pairs i b t b' p := by
  cases t with
  | fresh =>
    cases h
    split
    · exact .skip ‹_›
    · exact .look (Nat.le_of_not_lt ‹_›)
  | inspecting =>
    cases hp : pairs[i]? with
    | none =>
      simp only [step, hp] at h
      cases h
      exact .absent hp
    | some q =>
      obtain ⟨slice, expected⟩ := q
      simp only [step, hp] at h
      cases h
      split
      · exact .pass hp ‹_›
      · exact .fail hp ‹_›
  | reporting f =>
    cases h
    exact .report
  | exchanging current f =>
    simp only [step] at h
    split at h
    · rename_i hcurrent
      cases h
      rw [← hcurrent.1]
      exact .exchange
    · cases h
      exact .retry
  | returning f =>
    cases h
    exact .finish

/-! ## What the tasks promise -/

section
variable (check root commitment) (pairs : List (Slice × UInt64))

/-- The fault of a position of the list; past its end there is none. -/
def faultAt? (position : Nat) : Option Rejection :=
  pairs[position]?.bind fun p => fault? check root commitment position p.1 p.2

/-- A position on the board has a fault. -/
def Board.Truthful (b : Board) : Prop :=
  b.firstFailure ≠ pairs.length →
    (faultAt? check root commitment pairs b.firstFailure).isSome

/-- A finding states the fault of its position, unless it gives way to a lower one. -/
def Just (i : Nat) (f : Finding) : Prop :=
  f.rejection? = faultAt? check root commitment pairs i ∨
    f = .passed ∧ ∃ j < i, (faultAt? check root commitment pairs j).isSome

/-- A finding that is made known is a fault of its position. -/
def Blames (i : Nat) (f : Finding) : Prop :=
  f.rejection? = faultAt? check root commitment pairs i ∧
    (faultAt? check root commitment pairs i).isSome

/-- What is true of a task between its steps. -/
def Honest (i : Nat) : Phase → Prop
  | .fresh => i < pairs.length
  | .inspecting => i < pairs.length
  | .reporting f => Blames check root commitment pairs i f
  | .exchanging _ f => Blames check root commitment pairs i f
  | .returning f => Just check root commitment pairs i f

end

section
variable {pairs : List (Slice × UInt64)}

theorem inspect_rejection? {i : Nat} {slice : Slice} {expected : UInt64} :
    (inspect check root commitment i slice expected).1.rejection? =
      fault? check root commitment i slice expected := by
  unfold inspect fault?
  by_cases h : slice.index ≠ expected
  · simp only [if_pos h]
    rfl
  · simp only [if_neg h]
    cases check slice commitment root <;> rfl

theorem honest_contend {i : Nat} {b : Board} {f : Finding}
    (hf : Blames check root commitment pairs i f) :
    Honest check root commitment pairs i (contend i b f) := by
  unfold contend
  split
  · exact hf
  · exact Or.inl hf.1

/-- What is found at an inspected position is its fault. -/
theorem inspect_rejection?_eq_faultAt? {i : Nat} {slice : Slice} {expected : UInt64}
    (hp : pairs[i]? = some (slice, expected)) :
    (inspect check root commitment i slice expected).1.rejection? =
      faultAt? check root commitment pairs i := by
  rw [faultAt?, hp]
  exact inspect_rejection?

/-- Each step of a task keeps the board truthful and the task honest. -/
theorem step_running {i : Nat} {spurious : Bool} {t t' : Phase} {b b' : Board}
    (hb : Board.Truthful check root commitment pairs b) (ht : Honest check root commitment pairs i t)
    (h : step check root commitment pairs i spurious t b = (b', .running t')) :
    Board.Truthful check root commitment pairs b' ∧ Honest check root commitment pairs i t' := by
  cases step_of_eq h with
  | skip hlt =>
    have hi : i < pairs.length := ht
    exact ⟨hb, Or.inr ⟨rfl, b.firstFailure, hlt, hb (by omega)⟩⟩
  | look _ => exact ⟨hb, ht⟩
  | absent hp => exact absurd ht (Nat.not_lt.2 (List.getElem?_eq_none_iff.1 hp))
  | pass hp hpassed =>
    have hfault := @inspect_rejection?_eq_faultAt? check root commitment _ _ _ _ hp
    exact ⟨hb, Or.inl (hpassed ▸ hfault)⟩
  | fail hp hfailed =>
    have hfault := @inspect_rejection?_eq_faultAt? check root commitment _ _ _ _ hp
    refine ⟨hb, hfault, ?_⟩
    rw [← hfault, Option.isSome_iff_ne_none]
    exact fun hn => hfailed (Finding.rejection?_eq_none_iff.1 hn)
  | report => exact ⟨hb, honest_contend ht⟩
  | exchange => exact ⟨fun _ => ht.2, Or.inl ht.1⟩
  | retry => exact ⟨hb, honest_contend ht⟩

theorem program_promise :
    (program check root commitment pairs).Promise pairs.length
      (Board.Truthful check root commitment pairs) (Honest check root commitment pairs)
      (Just check root commitment pairs) where
  start hi := hi
  running hb ht h := step_running hb ht h
  finished hb ht h := by
    cases step_of_eq h with
    | finish => exact ⟨hb, ht⟩

/-! ## What the answers say -/

/-- The first fault among just findings is the lowest one: below it nothing gives way. -/
theorem findSome?_of_just {before rest : List (Slice × UInt64)} {found : List Finding}
    (hbefore : ∀ j < before.length, faultAt? check root commitment (before ++ rest) j = none)
    (hjust : List.Forall₂ (Just check root commitment (before ++ rest))
      (List.range' before.length rest.length) found) :
    found.findSome? Finding.rejection? = firstFault? check root commitment before.length rest := by
  induction rest generalizing before found with
  | nil =>
    cases hjust
    rfl
  | cons p rest ih =>
    obtain ⟨slice, expected⟩ := p
    rw [List.length_cons, List.range'_succ] at hjust
    cases hjust with
    | @cons _ f _ found hf hrest =>
      have hp : faultAt? check root commitment (before ++ (slice, expected) :: rest) before.length =
          fault? check root commitment before.length slice expected := by
        simp [faultAt?]
      have hhead : f.rejection? = fault? check root commitment before.length slice expected := by
        rcases hf with hf | ⟨-, j, hj, hsome⟩
        · rw [hf, hp]
        · rw [hbefore j hj] at hsome
          cases hsome
      simp only [List.findSome?_cons, firstFault?, hhead]
      cases hfault : fault? check root commitment before.length slice expected with
      | some cause => rfl
      | none =>
        have heq : before ++ (slice, expected) :: rest = (before ++ [(slice, expected)]) ++ rest := by
          simp
        have hlen : (before ++ [(slice, expected)]).length = before.length + 1 := by simp
        -- the position has no fault, so it joins those below the rest
        simp only
        rw [← hlen]
        refine ih (fun j hj => ?_) (by rw [hlen, ← heq]; exact hrest)
        rw [← heq]
        by_cases hlt : j < before.length
        · exact hbefore j hlt
        · have hj' : j = before.length := by omega
          rw [hj', hp, hfault]

end

/-- The pool reports the lowest fault. -/
theorem verify_fst (pool : Pool) (schedule : Pool.Schedule) {assigned : List UInt64}
    {slices : List Slice} (h : assigned.length = slices.length) :
    (verify pool check schedule root commitment assigned slices).1 =
      match firstFault? check root commitment 0 (slices.zip assigned) with
      | some cause => .error cause
      | none => .ok () := by
  have hpromise := @program_promise check root commitment (slices.zip assigned)
  have hempty : Board.Truthful check root commitment (slices.zip assigned)
      ⟨(slices.zip assigned).length, []⟩ := fun hne => absurd rfl hne
  have hanswers := (pool.run_forall₂ hpromise (fun _ => rfl) hempty schedule).1
  rw [List.range_eq_range'] at hanswers
  have hfirst := @findSome?_of_just check root commitment [] (slices.zip assigned) _
    (fun j hj => absurd hj (Nat.not_lt_zero j)) hanswers
  simp only [verify, if_neg (not_not.2 h), findings]
  rw [hfirst]
  cases firstFault? check root commitment 0 (slices.zip assigned) <;> rfl

/-- **Every schedule finds what the plain scan finds.** The check succeeds exactly when each slice has
the index of its position and a good proof; otherwise its error, kind and message, is that of the
lowest position with a fault, and at that position a wrong index counts before a bad proof. -/
theorem verify_any_schedule (pool : Pool) (check : SliceCheck) (schedule : Pool.Schedule)
    (root : StorageRoot) (commitment : G1) {assigned : List UInt64} {slices : List Slice}
    (h : assigned.length = slices.length) :
    let verdict := (verify pool check schedule root commitment assigned slices).1
    verdict = (scan check root commitment 0 (slices.zip assigned)).1 ∧
      (verdict = .ok () ↔ ∀ p ∈ slices.zip assigned,
        p.1.index = p.2 ∧ check p.1 commitment root = .accepted) ∧
      ∀ e : SignError, verdict.mapError Rejection.error = .error e ↔
        ∃ before slice expected after, slices.zip assigned = before ++ (slice, expected) :: after ∧
          (∀ p ∈ before, p.1.index = p.2 ∧ check p.1 commitment root = .accepted) ∧
          (fault? check root commitment before.length slice expected).map Rejection.error = some e := by
  intro verdict
  have hverdict : verdict = _ := verify_fst pool schedule h
  refine ⟨by rw [hverdict, scan_fst], ?_, fun e => ?_⟩
  · rw [hverdict, ← firstFault?_eq_none_iff (i := 0)]
    cases firstFault? check root commitment 0 (slices.zip assigned) <;> simp
  · have hsome := @firstFault?_eq_some_iff check root commitment 0 (slices.zip assigned)
    simp only [Nat.zero_add] at hsome
    rw [hverdict]
    constructor
    · intro he
      cases hf : firstFault? check root commitment 0 (slices.zip assigned) with
      | none => simp [hf, Except.mapError] at he
      | some cause =>
        obtain ⟨before, slice, expected, after, heq, hgood, hs⟩ := hsome.1 hf
        rw [hf] at he
        cases he
        exact ⟨before, slice, expected, after, heq, hgood, by rw [hs]; rfl⟩
    · rintro ⟨before, slice, expected, after, heq, hgood, hs⟩
      obtain ⟨cause, hcause, rfl⟩ := Option.map_eq_some_iff.1 hs
      rw [hsome.2 ⟨before, slice, expected, after, heq, hgood, hcause⟩]
      rfl

/-- Two workers, of which the one with the higher position is first with its wrong index. -/
theorem verify_any_schedule_two_faults :
    let pool : Pool := ⟨2, by decide⟩
    let check : SliceCheck := fun _ _ _ => .refused "bad proof"
    let schedule : Pool.Schedule := [.submit, .submit, .take 0, .take 1, .advance 0 false,
      .advance 1 false, .advance 1 false, .advance 1 true, .advance 1 false, .advance 1 false]
    [7, 8].length = [(⟨7, []⟩ : Slice), ⟨9, []⟩].length ∧
      (verify pool check schedule .zero .infinity [7, 8] [⟨7, []⟩, ⟨9, []⟩]).1 =
        .error (.sliceProof 7 "bad proof") :=
  ⟨rfl, (verify_any_schedule _ _ _ _ _ rfl).1.trans (by decide)⟩

end SliceCheck

end BlobSigner
