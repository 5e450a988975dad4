import BlobSigner.Proofs.SliceCheck.Schedules
/-!
# Verifiers with a memory

What a verifier says of a slice may depend on all the proofs it was asked for before (`Verifier`); a
check is a verifier that forgets them (`verify_ofCheck`). Its rulings on a position are written by the
task of that position alone, at most one, and only when the index is right (`Inspected`); a task that
gives way does so to a lower position with a fault (`Answered`). No other task touches either, so they
hold of every position when a run has ended: `run_answered`.
-/
namespace BlobSigner

/-- What is said of a proof, after those asked for before. -/
abbrev Verifier := List SliceCall → SliceCall → Verdict

namespace Verifier

open SliceCheck

def ofCheck (check : SliceCheck) : Verifier := fun _ c => check c.slice c.commitment c.root

/-! ## The pool with such a verifier -/

section
variable (V : Verifier)

/-- The check at a position, after these proofs. -/
def after (asked : List SliceCall) (position : Nat) : SliceCheck :=
  fun slice commitment root => V asked ⟨position, slice, commitment, root⟩

def program (root : StorageRoot) (commitment : G1) (pairs : List (Slice × UInt64)) :
    Program Board Phase Finding where
  start _ := .fresh
  step i spurious t b := step (V.after b.calls i) root commitment pairs i spurious t b
  rank _ := rank
  maxRank := 6
  failed _ := false
  rank_le _ := rank_le
  rank_step _ _ _ _ _ := rank_step

def findings (pool : Pool) (schedule : Pool.Schedule) (root : StorageRoot) (commitment : G1)
    (pairs : List (Slice × UInt64)) : List Finding × List SliceCall :=
  let (found, board) :=
    pool.run (V.program root commitment pairs) pairs.length schedule ⟨pairs.length, []⟩
  (found, board.calls)

def verify (pool : Pool) (schedule : Pool.Schedule) (root : StorageRoot) (commitment : G1)
    (assigned : List UInt64) (slices : List Slice) : Except Rejection Unit × List SliceCall :=
  if assigned.length ≠ slices.length then
    (.error (.sliceCount assigned.length slices.length), [])
  else
    let (found, calls) := V.findings pool schedule root commitment (slices.zip assigned)
    match found.findSome? Finding.rejection? with
    | some r => (.error r, calls)
    | none => (.ok (), calls)

/-- The calls, each with its verdict. -/
def rulings (asked : List SliceCall) : List SliceCall → List (SliceCall × Verdict)
  | [] => []
  | c :: rest => (c, V asked c) :: rulings (asked ++ [c]) rest

/-- The rulings on a position. -/
def rulingsAt (calls : List SliceCall) (i : Nat) : List (SliceCall × Verdict) :=
  (V.rulings [] calls).filter fun x => x.1.position = i

end

/-- A check is a verifier that forgets. -/
theorem verify_ofCheck (check : SliceCheck) (pool : Pool) (schedule : Pool.Schedule)
    (root : StorageRoot) (commitment : G1) (assigned : List UInt64) (slices : List Slice) :
    (ofCheck check).verify pool schedule root commitment assigned slices =
      SliceCheck.verify pool check schedule root commitment assigned slices := rfl

/-! ## Rulings -/

variable {V : Verifier}

theorem map_fst_rulings (asked calls : List SliceCall) :
    (V.rulings asked calls).map Prod.fst = calls := by
  induction calls generalizing asked with
  | nil => rfl
  | cons c rest ih => rw [rulings, List.map_cons, ih]

theorem rulings_append (asked calls new : List SliceCall) :
    V.rulings asked (calls ++ new) = V.rulings asked calls ++ V.rulings (asked ++ calls) new := by
  induction calls generalizing asked with
  | nil => simp [rulings]
  | cons c rest ih => simp [rulings, ih]

theorem rulings_ofCheck {check : SliceCheck} {asked calls : List SliceCall}
    {x : SliceCall × Verdict} (h : x ∈ (ofCheck check).rulings asked calls) :
    x.2 = check x.1.slice x.1.commitment x.1.root := by
  induction calls generalizing asked with
  | nil => cases h
  | cons c rest ih =>
    rcases List.mem_cons.1 h with rfl | h
    · rfl
    · exact ih h

theorem mem_of_mem_rulings {asked calls : List SliceCall} {x : SliceCall × Verdict}
    (h : x ∈ V.rulings asked calls) : x.1 ∈ calls := by
  rw [← map_fst_rulings (V := V) asked calls]
  exact List.mem_map_of_mem h

theorem mem_rulingsAt {calls : List SliceCall} {i : Nat} {x : SliceCall × Verdict} :
    x ∈ V.rulingsAt calls i ↔ x ∈ V.rulings [] calls ∧ x.1.position = i := by
  simp [rulingsAt]

theorem mem_rulings_of_eq_singleton {calls : List SliceCall} {i : Nat} {x : SliceCall × Verdict}
    (h : V.rulingsAt calls i = [x]) : x ∈ V.rulings [] calls :=
  (mem_rulingsAt.1 (h ▸ List.mem_singleton_self x)).1

/-- Calls of other positions leave the rulings on a position as they are. -/
theorem rulingsAt_append_of_ne {calls new : List SliceCall} {i : Nat}
    (h : ∀ c ∈ new, c.position ≠ i) : V.rulingsAt (calls ++ new) i = V.rulingsAt calls i := by
  have hnew : (V.rulings calls new).filter (fun x => x.1.position = i) = [] := by
    rw [List.filter_eq_nil_iff]
    intro x hx
    simpa using h x.1 (mem_of_mem_rulings hx)
  rw [rulingsAt, rulings_append, List.filter_append, List.nil_append, hnew, List.append_nil]
  rfl

theorem rulingsAt_append_self {calls : List SliceCall} {c : SliceCall} :
    V.rulingsAt (calls ++ [c]) c.position = V.rulingsAt calls c.position ++ [(c, V calls c)] := by
  simp [rulingsAt, rulings_append, rulings]

theorem count_positions (calls : List SliceCall) (i : Nat) :
    (calls.map SliceCall.position).count i = (V.rulingsAt calls i).length := by
  conv_lhs => rw [← map_fst_rulings (V := V) [] calls]
  rw [List.map_map, List.count, List.countP_map, rulingsAt, ← List.countP_eq_length_filter]
  exact List.countP_congr fun x _ => by simp

/-! ## Faults -/

/-- Whether the slice of a position has the index assigned to it. -/
def placed (pairs : List (Slice × UInt64)) (i : Nat) : Bool :=
  pairs[i]?.any fun q => q.1.index = q.2

/-- A position has a wrong index, or its proof was asked for and not accepted. -/
def Faulty (pairs : List (Slice × UInt64)) (rulings : List (SliceCall × Verdict)) (i : Nat) : Prop :=
  (i < pairs.length ∧ placed pairs i = false) ∨
    ∃ x ∈ rulings, x.1.position = i ∧ x.2 ≠ .accepted

theorem Faulty.append {pairs : List (Slice × UInt64)} {rulings : List (SliceCall × Verdict)} {i : Nat}
    (h : Faulty pairs rulings i) (new : List (SliceCall × Verdict)) :
    Faulty pairs (rulings ++ new) i :=
  h.imp_right fun ⟨x, hx, hfault⟩ => ⟨x, List.mem_append_left _ hx, hfault⟩

section
variable (V) (root : StorageRoot) (commitment : G1) (pairs : List (Slice × UInt64))

/-- What the rulings on a position are once it was looked at, with finding `f`. -/
inductive Inspected (i : Nat) (f : Finding) : List (SliceCall × Verdict) → Prop where
  | misplaced : i < pairs.length → placed pairs i = false → f ≠ .passed → Inspected i f []
  | ruled {slice : Slice} {v : Verdict} : pairs[i]? = some (slice, slice.index) →
      (f = .passed ↔ v = .accepted) → Inspected i f [(⟨i, slice, commitment, root⟩, v)]

/-- A finding is that of an inspection, or it gives way to a lower position with a fault. -/
def Answered (calls : List SliceCall) (i : Nat) (f : Finding) : Prop :=
  Inspected root commitment pairs i f (V.rulingsAt calls i) ∨
    f = .passed ∧ V.rulingsAt calls i = [] ∧ ∃ j < i, Faulty pairs (V.rulings [] calls) j

/-- What is known of a position and the calls, at each stage of the position. -/
def Kept (i : Nat) : Stage Phase Finding → Board → Prop
  | .waiting, b => V.rulingsAt b.calls i = []
  | .working .fresh, b | .working .inspecting, b => i < pairs.length ∧ V.rulingsAt b.calls i = []
  | .working (.reporting f), b | .working (.exchanging _ f), b =>
    Inspected root commitment pairs i f (V.rulingsAt b.calls i) ∧ f ≠ .passed
  | .working (.returning f), b | .done f, b => V.Answered root commitment pairs b.calls i f

/-- The position on the board has a fault, and each proof was asked for with the slice of its
position, which has the assigned index, and with the commitment and root of the blob. -/
structure Sound (b : Board) : Prop where
  board : b.firstFailure = pairs.length ∨ Faulty pairs (V.rulings [] b.calls) b.firstFailure
  proper : ∀ c ∈ b.calls, pairs[c.position]? = some (c.slice, c.slice.index) ∧
    c.commitment = commitment ∧ c.root = root

end

variable {root : StorageRoot} {commitment : G1} {pairs : List (Slice × UInt64)}

theorem Inspected.faulty {calls : List SliceCall} {i : Nat} {f : Finding}
    (h : Inspected root commitment pairs i f (V.rulingsAt calls i)) (hf : f ≠ .passed) :
    Faulty pairs (V.rulings [] calls) i := by
  generalize hr : V.rulingsAt calls i = rs at h
  cases h with
  | misplaced hi hplaced _ => exact Or.inl ⟨hi, hplaced⟩
  | ruled hp hv =>
    exact Or.inr ⟨_, mem_rulings_of_eq_singleton hr, rfl, fun hacc => hf (hv.2 hacc)⟩

/-! ## What the tasks keep up -/

/-- A proof is asked for only when the index is right. -/
theorem inspect_calls {check : SliceCheck} {i : Nat} {slice : Slice} {expected : UInt64} :
    slice.index ≠ expected ∧ (inspect check root commitment i slice expected).2 = [] ∧
        (inspect check root commitment i slice expected).1 ≠ .passed ∨
      slice.index = expected ∧
        (inspect check root commitment i slice expected).2 = [⟨i, slice, commitment, root⟩] ∧
        ((inspect check root commitment i slice expected).1 = .passed ↔
          check slice commitment root = .accepted) := by
  by_cases h : slice.index ≠ expected
  · exact Or.inl ⟨h, by simp [inspect, h], by simp [inspect, h]⟩
  · refine Or.inr ⟨not_not.1 h, by simp [inspect, h], ?_⟩
    rw [inspect, if_neg h]
    cases check slice commitment root <;> simp

theorem lt_of_placed {i : Nat} (h : placed pairs i = true) : i < pairs.length := by
  by_contra hge
  simp [placed, List.getElem?_eq_none (Nat.le_of_not_lt hge)] at h

theorem placed_eq {i : Nat} {slice : Slice} {expected : UInt64}
    (hp : pairs[i]? = some (slice, expected)) : placed pairs i = decide (slice.index = expected) := by
  rw [placed, hp]
  rfl

/-- The rulings on a position after its inspection. -/
theorem inspected_inspect {calls : List SliceCall} {i : Nat} {slice : Slice} {expected : UInt64}
    (hp : pairs[i]? = some (slice, expected)) (h : V.rulingsAt calls i = []) :
    let found := inspect (V.after calls i) root commitment i slice expected
    Inspected root commitment pairs i found.1 (V.rulingsAt (calls ++ found.2) i) := by
  intro found
  rcases @inspect_calls root commitment (V.after calls i) i slice expected with
    ⟨hne, hcalls, hf⟩ | ⟨rfl, hcalls, hf⟩
  · rw [show found.2 = [] from hcalls, List.append_nil, h]
    exact .misplaced (List.getElem?_eq_some_iff.1 hp).1 (by simp [placed_eq hp, hne]) hf
  · have hself := @rulingsAt_append_self V calls ⟨i, slice, commitment, root⟩
    rw [show found.2 = _ from hcalls, hself, h]
    exact .ruled hp hf

theorem Sound.inspect {b : Board} (hb : V.Sound root commitment pairs b) {i : Nat} {slice : Slice}
    {expected : UInt64} (hp : pairs[i]? = some (slice, expected)) :
    let found := inspect (V.after b.calls i) root commitment i slice expected
    V.Sound root commitment pairs { b with calls := b.calls ++ found.2 } := by
  intro found
  refine ⟨hb.board.imp_right fun h => ?_, List.forall_mem_append.2 ⟨hb.proper, fun c hc => ?_⟩⟩
  · rw [rulings_append]
    exact h.append _
  · rcases @inspect_calls root commitment (V.after b.calls i) i slice expected with
      ⟨-, hcalls, -⟩ | ⟨rfl, hcalls, -⟩
    · rw [show found.2 = [] from hcalls] at hc
      cases hc
    · rw [show found.2 = _ from hcalls] at hc
      obtain rfl := List.mem_singleton.1 hc
      exact ⟨hp, rfl, rfl⟩

theorem kept_contend {i : Nat} {b : Board} {f : Finding}
    (h : Inspected root commitment pairs i f (V.rulingsAt b.calls i) ∧ f ≠ .passed) :
    V.Kept root commitment pairs i (.working (contend i b f)) b := by
  rw [contend]
  split
  · exact h
  · exact Or.inl h.1

/-- What a task does for its own position. -/
theorem kept_own {i : Nat} {t : Phase} {b b' : Board} {p : Progress Phase Finding}
    (hb : V.Sound root commitment pairs b) (ht : V.Kept root commitment pairs i (.working t) b)
    (h : SliceCheck.Step (V.after b.calls i) root commitment pairs i b t b' p) :
    V.Sound root commitment pairs b' ∧ V.Kept root commitment pairs i p.stage b' := by
  cases h with
  | skip hlt =>
    -- what stands on the board below this position is a fault
    have hfault := hb.board.resolve_left (Nat.ne_of_lt (Nat.lt_trans hlt ht.1))
    exact ⟨hb, Or.inr ⟨rfl, ht.2, b.firstFailure, hlt, hfault⟩⟩
  | look _ => exact ⟨hb, ht⟩
  | absent hp => exact absurd ht.1 (Nat.not_lt.2 (List.getElem?_eq_none_iff.1 hp))
  | pass hp hpassed => exact ⟨hb.inspect hp, Or.inl (hpassed ▸ inspected_inspect hp ht.2)⟩
  | fail hp hfailed => exact ⟨hb.inspect hp, inspected_inspect hp ht.2, hfailed⟩
  | report => exact ⟨hb, kept_contend ht⟩
  | exchange => exact ⟨⟨Or.inr (ht.1.faulty ht.2), hb.proper⟩, Or.inl ht.1⟩
  | retry => exact ⟨hb, kept_contend ht⟩
  | finish => exact ⟨hb, ht⟩

/-- A step asks for no proof but that of its own position. -/
theorem calls_of_step {check : SliceCheck} {i : Nat} {t : Phase} {b b' : Board}
    {p : Progress Phase Finding} (h : SliceCheck.Step check root commitment pairs i b t b' p) :
    ∃ new, b'.calls = b.calls ++ new ∧ ∀ c ∈ new, c.position = i := by
  have hinspect : ∀ slice expected, ∀ c ∈ (inspect check root commitment i slice expected).2,
      c.position = i := by
    intro slice expected c hc
    rcases @inspect_calls root commitment check i slice expected with
      ⟨-, hcalls, -⟩ | ⟨-, hcalls, -⟩ <;> rw [hcalls] at hc
    · cases hc
    · rw [List.mem_singleton.1 hc]
  cases h with
  | pass _ _ => exact ⟨_, rfl, hinspect _ _⟩
  | fail _ _ => exact ⟨_, rfl, hinspect _ _⟩
  | _ => exact ⟨[], (List.append_nil _).symm, fun c hc => nomatch hc⟩

theorem Answered.append {calls new : List SliceCall} {i : Nat} {f : Finding}
    (h : V.Answered root commitment pairs calls i f) (hnew : ∀ c ∈ new, c.position ≠ i) :
    V.Answered root commitment pairs (calls ++ new) i f := by
  rw [Answered, rulingsAt_append_of_ne hnew, rulings_append]
  exact h.imp_right fun ⟨hf, hnone, j, hj, hfault⟩ => ⟨hf, hnone, j, hj, hfault.append _⟩

/-- What a task leaves in force for the other positions. -/
theorem kept_others {i j : Nat} {check : SliceCheck} {t : Phase} {b b' : Board}
    {p : Progress Phase Finding} {stage : Stage Phase Finding} (hne : j ≠ i)
    (h : SliceCheck.Step check root commitment pairs i b t b' p)
    (hj : V.Kept root commitment pairs j stage b) : V.Kept root commitment pairs j stage b' := by
  obtain ⟨new, hcalls, hnew⟩ := calls_of_step h
  have hother : ∀ c ∈ new, c.position ≠ j := fun c hc e => hne (e.symm.trans (hnew c hc))
  have hsame : V.rulingsAt b'.calls j = V.rulingsAt b.calls j := by
    rw [hcalls, rulingsAt_append_of_ne hother]
  have hanswered : ∀ {f}, V.Answered root commitment pairs b.calls j f →
      V.Answered root commitment pairs b'.calls j f := fun hf => by
    rw [hcalls]
    exact hf.append hother
  cases stage with
  | waiting => exact hsame.trans hj
  | working t =>
    cases t with
    | fresh => exact ⟨hj.1, hsame.trans hj.2⟩
    | inspecting => exact ⟨hj.1, hsame.trans hj.2⟩
    | reporting f => exact ⟨hsame ▸ hj.1, hj.2⟩
    | exchanging current f => exact ⟨hsame ▸ hj.1, hj.2⟩
    | returning f => exact hanswered hj
  | done f => exact hanswered hj

theorem program_contract :
    (V.program root commitment pairs).Contract pairs.length (V.Sound root commitment pairs)
      (V.Kept root commitment pairs) where
  start hi _ h := ⟨hi, h⟩
  own hb ht h := kept_own hb ht (step_of_eq h)
  others hne _ _ h hj := kept_others hne (step_of_eq h) hj

/-- After a run the calls are sound, and every position has an answer that fits them. -/
theorem run_answered (pool : Pool) (schedule : Pool.Schedule) :
    let (found, b) :=
      pool.run (V.program root commitment pairs) pairs.length schedule ⟨pairs.length, []⟩
    List.Forall₂ (V.Answered root commitment pairs b.calls) (List.range pairs.length) found ∧
      V.Sound root commitment pairs b := by
  have hempty : V.Sound root commitment pairs ⟨pairs.length, []⟩ :=
    ⟨Or.inl rfl, fun _ hc => nomatch hc⟩
  exact pool.run_contract program_contract (fun _ => rfl) hempty (fun _ _ => rfl) schedule

end Verifier

end BlobSigner
