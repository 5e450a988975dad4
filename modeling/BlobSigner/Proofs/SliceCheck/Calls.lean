import BlobSigner.Proofs.SliceCheck.OneWorker
import Mathlib.Data.List.Nodup
import Mathlib.Data.Nat.Find
/-!
# Which proofs are asked for

Whatever the schedule and whatever the verifier remembers, a proof is asked for at most once, and all
those below the lowest position with a fault are (`FirstFault`): a task gives way only to a fault
below its own position. The verdict is good just when no position has a fault, and then every proof
was asked for. With one worker the calls are a scan's, so they stop at the first fault:
`asks_up_to_first_fault`.
-/
namespace BlobSigner.Verifier

open SliceCheck

variable {V : Verifier} {root : StorageRoot} {commitment : G1} {pairs : List (Slice × UInt64)}

/-! ## The lowest fault -/

/-- The lowest position with a fault, or the number of positions if there is none. -/
structure FirstFault (pairs : List (Slice × UInt64)) (rulings : List (SliceCall × Verdict))
    (p : Nat) : Prop where
  le : p ≤ pairs.length
  below : ∀ i < p, ¬Faulty pairs rulings i
  faulty : p < pairs.length → Faulty pairs rulings p

theorem exists_firstFault (pairs : List (Slice × UInt64)) (rulings : List (SliceCall × Verdict)) :
    ∃ p, FirstFault pairs rulings p := by
  classical
  have hexists : ∃ p, p = pairs.length ∨ Faulty pairs rulings p := ⟨_, Or.inl rfl⟩
  refine ⟨Nat.find hexists, Nat.find_min' hexists (Or.inl rfl), fun i hi hfault => ?_, fun hlt => ?_⟩
  · exact Nat.find_min hexists hi (Or.inr hfault)
  · exact (Nat.find_spec hexists).resolve_left (Nat.ne_of_lt hlt)

/-! ## What an answer says -/

theorem Answered.length_le_one {calls : List SliceCall} {i : Nat} {f : Finding}
    (h : V.Answered root commitment pairs calls i f) : (V.rulingsAt calls i).length ≤ 1 := by
  rcases h with h | ⟨-, hnone, -⟩
  · cases hr : V.rulingsAt calls i with
    | nil => exact Nat.zero_le 1
    | cons x rest =>
      rw [hr] at h
      cases h
      exact Nat.le_refl 1
  · rw [hnone]
    exact Nat.zero_le 1

/-- A position without a fault at it or below was asked for, and passed. -/
theorem Answered.of_no_fault {calls : List SliceCall} {i : Nat} {f : Finding}
    (h : V.Answered root commitment pairs calls i f)
    (hgood : ∀ j ≤ i, ¬Faulty pairs (V.rulings [] calls) j) :
    f = .passed ∧ ∃ slice, pairs[i]? = some (slice, slice.index) ∧
      V.rulingsAt calls i = [(⟨i, slice, commitment, root⟩, .accepted)] := by
  rcases h with h | ⟨-, -, j, hj, hfault⟩
  · have hf : f = .passed := by_contra fun hf => hgood i (Nat.le_refl i) (h.faulty hf)
    refine ⟨hf, ?_⟩
    generalize V.rulingsAt calls i = rs at h
    cases h with
    | misplaced _ _ hne => exact absurd hf hne
    | @ruled slice v hp hv =>
      rw [hv.1 hf]
      exact ⟨slice, hp, rfl⟩
  · exact absurd hfault (hgood j (Nat.le_of_lt hj))

/-- The lowest fault does not pass. -/
theorem Answered.ne_passed {calls : List SliceCall} {i : Nat} {f : Finding}
    (h : V.Answered root commitment pairs calls i f)
    (hgood : ∀ j < i, ¬Faulty pairs (V.rulings [] calls) j)
    (hfault : Faulty pairs (V.rulings [] calls) i) : f ≠ .passed := by
  rintro rfl
  rcases h with h | ⟨-, -, j, hj, hlower⟩
  · generalize hr : V.rulingsAt calls i = rs at h
    cases h with
    | misplaced _ _ hne => exact hne rfl
    | @ruled slice v hp hv =>
      rcases hfault with ⟨-, hplaced⟩ | ⟨x, hx, hi, hne⟩
      · simp [placed_eq hp] at hplaced
      · have hmem := mem_rulingsAt.2 ⟨hx, hi⟩
        rw [hr] at hmem
        rw [List.mem_singleton.1 hmem] at hne
        exact hne (hv.1 rfl)
  · exact hgood j hj hlower

/-! ## What all answers say -/

section
variable {calls : List SliceCall} {found : List Finding} {p : Nat}

/-- A call is of a position of the list, with the index assigned to it. -/
theorem Sound.placed {b : Board} (hb : V.Sound root commitment pairs b) {c : SliceCall}
    (hc : c ∈ b.calls) : c.position < pairs.length ∧ placed pairs c.position = true := by
  have hp := (hb.proper c hc).1
  exact ⟨(List.getElem?_eq_some_iff.1 hp).1, by simp [placed_eq hp]⟩

theorem nodup_positions {b : Board} (hb : V.Sound root commitment pairs b)
    (h : List.Forall₂ (V.Answered root commitment pairs b.calls) (List.range pairs.length) found) :
    (b.calls.map SliceCall.position).Nodup := by
  refine List.nodup_iff_count_le_one.2 fun i => ?_
  by_cases hi : i < pairs.length
  · obtain ⟨f, -, hf⟩ := exists_of_forall₂_range h hi
    rw [count_positions (V := V)]
    exact hf.length_le_one
  · have hnone : i ∉ b.calls.map SliceCall.position := fun hmem => by
      obtain ⟨c, hc, rfl⟩ := List.mem_map.1 hmem
      exact hi (hb.placed hc).1
    rw [List.count_eq_zero.2 hnone]
    exact Nat.zero_le 1

/-- Below the lowest fault every proof was asked for and accepted. -/
theorem FirstFault.accepted
    (hp : FirstFault pairs (V.rulings [] calls) p)
    (h : List.Forall₂ (V.Answered root commitment pairs calls) (List.range pairs.length) found)
    {i : Nat} (hi : i < p) : ∃ slice, pairs[i]? = some (slice, slice.index) ∧
      V.rulingsAt calls i = [(⟨i, slice, commitment, root⟩, .accepted)] := by
  obtain ⟨f, -, hf⟩ := exists_of_forall₂_range h (Nat.lt_of_lt_of_le hi hp.le)
  exact (hf.of_no_fault fun j hj => hp.below j (Nat.lt_of_le_of_lt hj hi)).2

/-- All findings are good just when there is no fault. -/
theorem FirstFault.passed_iff (hp : FirstFault pairs (V.rulings [] calls) p)
    (h : List.Forall₂ (V.Answered root commitment pairs calls) (List.range pairs.length) found) :
    found.findSome? Finding.rejection? = none ↔ p = pairs.length := by
  rw [List.findSome?_eq_none_iff]
  constructor
  · intro hall
    by_contra hne
    have hlt : p < pairs.length := Nat.lt_of_le_of_ne hp.le hne
    obtain ⟨f, hmem, hf⟩ := exists_of_forall₂_range h hlt
    exact hf.ne_passed hp.below (hp.faulty hlt) (Finding.rejection?_eq_none_iff.1 (hall f hmem))
  · rintro rfl f hmem
    obtain ⟨i, hi, hf⟩ := forall_of_forall₂_range h f hmem
    exact Finding.rejection?_eq_none_iff.2
      (hf.of_no_fault fun j hj => hp.below j (Nat.lt_of_le_of_lt hj hi)).1

end

/-! ## The calls of one worker -/

/-- Of calls of consecutive positions of which all but the last are accepted, a refused one is the
last. -/
theorem position_of_refused {calls : List SliceCall}
    (hpositions : calls.map SliceCall.position = List.range calls.length)
    (haccepted : ∀ x ∈ (V.rulings [] calls).dropLast, x.2 = .accepted) {x : SliceCall × Verdict}
    (hx : x ∈ V.rulings [] calls) (hne : x.2 ≠ .accepted) : x.1.position + 1 = calls.length := by
  rcases List.eq_nil_or_concat' (V.rulings [] calls) with hnil | ⟨init, y, hlast⟩
  · rw [hnil] at hx
    cases hx
  · have hcalls : calls = init.map Prod.fst ++ [y.1] := by
      rw [← map_fst_rulings (V := V) [] calls, hlast, List.map_append]
      rfl
    rw [hlast, List.dropLast_concat] at haccepted
    rw [hlast] at hx
    rcases List.mem_append.1 hx with hx | hx
    · exact absurd (haccepted x hx) hne
    · have hlength : calls.length = init.length + 1 := by simp [hcalls]
      rw [hlength, hcalls, List.range_succ, List.map_append] at hpositions
      have hposition := (List.append_inj' hpositions rfl).2
      rw [List.mem_singleton.1 hx, hlength, List.singleton_inj.1 hposition]

/-- Up to the lowest fault, and at it if the index is right. -/
theorem positions_of_one_worker {b : Board} {found : List Finding} {p : Nat}
    (hb : V.Sound root commitment pairs b)
    (h : List.Forall₂ (V.Answered root commitment pairs b.calls) (List.range pairs.length) found)
    (hp : FirstFault pairs (V.rulings [] b.calls) p)
    (hscan : b.calls = V.scan root commitment 0 [] pairs) :
    b.calls.map SliceCall.position = List.range p ++ if placed pairs p then [p] else [] := by
  obtain ⟨new, hnew, hpositions, haccepted⟩ := @exists_scan_eq_append V root commitment 0 [] pairs
  obtain rfl : b.calls = new := hscan.trans hnew
  rw [← List.range_eq_range'] at hpositions
  -- every position below `p` was asked for, so the calls reach up to it
  have hle : p ≤ b.calls.length := by
    by_contra hlt
    obtain ⟨slice, -, hr⟩ := hp.accepted h (Nat.lt_of_not_le hlt)
    have hcalled := List.mem_map_of_mem (f := SliceCall.position)
      (mem_of_mem_rulings (mem_rulings_of_eq_singleton hr))
    rw [hpositions, List.mem_range] at hcalled
    exact absurd hcalled (Nat.lt_irrefl _)
  rw [hpositions]
  cases hplaced : placed pairs p with
  | true =>
    -- the fault is a refusal then, which only the last call can get
    rcases hp.faulty (lt_of_placed hplaced) with ⟨-, hne⟩ | ⟨x, hx, rfl, hne⟩
    · rw [hplaced] at hne
      cases hne
    · rw [← position_of_refused hpositions haccepted hx hne, List.range_succ]
      rfl
  | false =>
    -- a call at `p` would have the assigned index
    have heq : b.calls.length = p := by
      by_contra hne
      have hcalled : p ∈ b.calls.map SliceCall.position := by
        rw [hpositions, List.mem_range]
        omega
      obtain ⟨c, hc, rfl⟩ := List.mem_map.1 hcalled
      rw [(hb.placed hc).2] at hplaced
      cases hplaced
    rw [heq]
    exact (List.append_nil _).symm

/-! ## Any schedule -/

theorem faultAt?_eq_none_iff {check : SliceCheck} {i : Nat} {slice : Slice} {expected : UInt64}
    (hp : pairs[i]? = some (slice, expected)) :
    faultAt? check root commitment pairs i = none ↔
      slice.index = expected ∧ check slice commitment root = .accepted := by
  rw [faultAt?, hp]
  exact fault?_eq_none_iff

/-- With a check, a position has a fault in a run as it has for the check. -/
theorem FirstFault.of_check {check : SliceCheck} {b : Board} {found : List Finding} {p : Nat}
    (hb : (ofCheck check).Sound root commitment pairs b)
    (h : List.Forall₂ ((ofCheck check).Answered root commitment pairs b.calls)
      (List.range pairs.length) found)
    (hp : FirstFault pairs ((ofCheck check).rulings [] b.calls) p) :
    (∀ i < p, faultAt? check root commitment pairs i = none) ∧
      (p < pairs.length → faultAt? check root commitment pairs p ≠ none) := by
  constructor
  · intro i hi
    obtain ⟨slice, hslice, hr⟩ := hp.accepted h hi
    have hgood := rulings_ofCheck (mem_rulings_of_eq_singleton hr)
    exact (faultAt?_eq_none_iff hslice).2 ⟨rfl, hgood.symm⟩
  · intro hlt
    have hslice : pairs[p]? = some (pairs[p].1, pairs[p].2) := List.getElem?_eq_getElem hlt
    rw [Ne, faultAt?_eq_none_iff hslice]
    rintro ⟨hindex, hgood⟩
    rcases hp.faulty hlt with ⟨-, hplaced⟩ | ⟨x, hx, rfl, hne⟩
    · simp [placed_eq hslice, hindex] at hplaced
    · obtain ⟨hown, hcommitment, hroot⟩ := hb.proper x.1 (mem_of_mem_rulings hx)
      rw [rulings_ofCheck hx, hcommitment, hroot] at hne
      rw [hslice] at hown
      obtain ⟨hx1, -⟩ := Prod.mk.inj (Option.some.inj hown)
      exact hne (hx1 ▸ hgood)

theorem verify_fst_eq_ok_iff (pool : Pool) (schedule : Pool.Schedule) {assigned : List UInt64}
    {slices : List Slice} (h : assigned.length = slices.length) :
    (V.verify pool schedule root commitment assigned slices).1 = .ok () ↔
      (V.findings pool schedule root commitment (slices.zip assigned)).1.findSome?
        Finding.rejection? = none := by
  rw [verify, if_neg (not_not.2 h)]
  simp only
  split <;> rename_i hr <;> simp [hr]

/-- **The proofs that are asked for.** With as many slices as assigned, a proof is asked for at most
once at a position, with the slice there, which has its assigned index, and with the commitment and
root of the blob. Let `p` be the lowest position with a fault, or the number of positions if none has
one: every proof below `p` is asked for exactly once, the verdict is good just when there is no fault,
and one worker asks for the proofs of positions 0, 1, … in order up to `p`, whose own is among them
only if its index is right. Otherwise no proof is asked for. A check is such a verifier, and its `p` is
the lowest position that fails by the check. -/
theorem asks_up_to_first_fault (V : Verifier) (pool : Pool) (schedule : Pool.Schedule)
    (root : StorageRoot) (commitment : G1) (assigned : List UInt64) (slices : List Slice) :
    let call := V.verify pool schedule root commitment assigned slices
    let positions := call.2.map SliceCall.position
    let pairs := slices.zip assigned
    (∀ check : SliceCheck, V = .ofCheck check →
        call = SliceCheck.verify pool check schedule root commitment assigned slices) ∧
      (assigned.length ≠ slices.length → call.2 = []) ∧
      (assigned.length = slices.length → positions.Nodup ∧
        (∀ c ∈ call.2, slices[c.position]? = some c.slice ∧
          assigned[c.position]? = some c.slice.index ∧ c.commitment = commitment ∧ c.root = root) ∧
        ∃ p, FirstFault pairs (V.rulings [] call.2) p ∧
          (∀ i < p, positions.count i = 1) ∧
          (call.1 = .ok () ↔ p = slices.length) ∧
          (pool.workers = 1 → positions = List.range p ++ if placed pairs p then [p] else []) ∧
          ∀ check : SliceCheck, V = .ofCheck check →
            (∀ i < p, faultAt? check root commitment pairs i = none) ∧
              (p < slices.length → faultAt? check root commitment pairs p ≠ none)) := by
  intro call positions pairs
  refine ⟨?_, fun hne => ?_, fun hlength => ?_⟩
  · rintro check rfl
    rfl
  · simp only [call, verify, if_pos hne]
  have hpairs : pairs.length = slices.length := by
    rw [List.length_zip, hlength, Nat.min_self]
  obtain ⟨hfound, hsound⟩ := @run_answered V root commitment pairs pool schedule
  have hcalls : call.2 = (V.findings pool schedule root commitment pairs).2 :=
    verify_snd pool schedule hlength
  have hverdict : call.1 = .ok () ↔ _ := verify_fst_eq_ok_iff pool schedule hlength
  obtain ⟨p, hp⟩ := exists_firstFault pairs (V.rulings [] call.2)
  rw [← hpairs]
  simp only [positions, hverdict, hcalls] at hp ⊢
  refine ⟨nodup_positions hsound hfound, fun c hc => ?_, p, hp, fun i hi => ?_,
    hp.passed_iff hfound, fun hone => ?_, ?_⟩
  · obtain ⟨hpair, hown⟩ := hsound.proper c hc
    obtain ⟨hslice, hindex⟩ := List.getElem?_zip_eq_some.1 hpair
    exact ⟨hslice, hindex, hown⟩
  · obtain ⟨slice, -, hr⟩ := hp.accepted hfound hi
    rw [count_positions (V := V)]
    exact congrArg List.length hr
  · refine positions_of_one_worker hsound hfound hp ?_
    exact hcalls.symm.trans (verify_calls_eq_scan hone schedule hlength)
  · rintro check rfl
    exact hp.of_check hsound hfound

/-- One worker, and a wrong index at position 1: only the proof of position 0 is asked for. -/
theorem asks_up_to_first_fault_misplaced :
    let pool : Pool := ⟨1, by decide⟩
    let slices : List Slice := [⟨7, []⟩, ⟨5, []⟩, ⟨9, []⟩]
    ((ofCheck fun _ _ _ => .accepted).verify pool [.submit, .submit, .take 0] .zero .infinity
      [7, 8, 9] slices).2.map SliceCall.position = [0] := by
  intro pool slices
  obtain ⟨-, -, h⟩ := asks_up_to_first_fault (ofCheck fun _ _ _ => .accepted) pool
    [.submit, .submit, .take 0] .zero .infinity [7, 8, 9] slices
  obtain ⟨-, -, p, hp, -, -, hone, hcheck⟩ := h rfl
  obtain ⟨hbelow, hfault⟩ := hcheck _ rfl
  obtain rfl : p = 1 := by
    have hle : ¬1 < p := fun hlt => absurd (hbelow 1 hlt) (by decide)
    have hpos : p ≠ 0 := by
      rintro rfl
      exact hfault (by decide) rfl
    omega
  exact hone rfl

end BlobSigner.Verifier
