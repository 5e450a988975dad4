import BlobSigner.Proofs.Pool.OneWorker
import BlobSigner.Proofs.SliceCheck.Verifier
/-!
# The proofs that one worker asks for

With a single worker the pool asks a verifier for the proofs that a plain scan asks it for, in the same
order, whatever the schedule (`Verifier.verify_calls_eq_scan`). Until a position fails, scanning the
positions that are left gives the calls of the whole scan; once one has failed these are the calls so
far. With a check the scan is the plain one (`SliceCheck.calls_of_one_worker`).
-/
namespace BlobSigner

namespace Verifier

open SliceCheck

variable {V : Verifier} {root : StorageRoot} {commitment : G1} {pairs : List (Slice × UInt64)}

/-! ## Scanning with a memory -/

/-- The calls of a scan of positions `i`, `i + 1`, …, up to the first that does not pass, after those
made before. -/
def scan (V : Verifier) (root : StorageRoot) (commitment : G1) (i : Nat) (asked : List SliceCall) :
    List (Slice × UInt64) → List SliceCall
  | [] => asked
  | (slice, expected) :: rest =>
    let (f, new) := inspect (V.after asked i) root commitment i slice expected
    if f = .passed then scan V root commitment (i + 1) (asked ++ new) rest else asked ++ new

/-- A scan asks for the proofs of consecutive positions, and of these all but the last are
accepted. -/
theorem exists_scan_eq_append (i : Nat) (asked : List SliceCall) (rest : List (Slice × UInt64)) :
    ∃ new, V.scan root commitment i asked rest = asked ++ new ∧
      new.map SliceCall.position = List.range' i new.length ∧
      ∀ x ∈ (V.rulings asked new).dropLast, x.2 = .accepted := by
  induction rest generalizing i asked with
  | nil => exact ⟨[], (List.append_nil asked).symm, rfl, fun x hx => nomatch hx⟩
  | cons p rest ih =>
    obtain ⟨slice, expected⟩ := p
    rcases @inspect_calls root commitment (V.after asked i) i slice expected with
      ⟨-, hcalls, hf⟩ | ⟨-, hcalls, hf⟩
    · refine ⟨[], ?_, rfl, fun x hx => nomatch hx⟩
      simp only [scan, if_neg hf, hcalls]
    · by_cases hpassed : (inspect (V.after asked i) root commitment i slice expected).1 = .passed
      · obtain ⟨new, hscan, hpositions, haccepted⟩ :=
          ih (i + 1) (asked ++ [⟨i, slice, commitment, root⟩])
        refine ⟨⟨i, slice, commitment, root⟩ :: new, ?_, ?_, fun x hx => ?_⟩
        · simp only [scan, if_pos hpassed, hcalls, hscan, List.append_assoc, List.singleton_append]
        · rw [List.map_cons, hpositions, List.length_cons, List.range'_succ]
        · cases new with
          | nil => cases hx
          | cons c new =>
            rcases List.mem_cons.1 hx with rfl | hx
            · exact hf.1 hpassed
            · exact haccepted x hx
      · refine ⟨[⟨i, slice, commitment, root⟩], ?_, rfl, fun x hx => nomatch hx⟩
        simp only [scan, if_neg hpassed, hcalls]

/-! ## One position after the other -/

section
variable (V) (root : StorageRoot) (commitment : G1) (pairs : List (Slice × UInt64))

/-- No position below `i` has failed, and a scan of those left ends with the calls of all. -/
def Clear (i : Nat) (b : Board) : Prop :=
  b.firstFailure = pairs.length ∧
    V.scan root commitment i b.calls (pairs.drop i) = V.scan root commitment 0 [] pairs

/-- The board between the tasks: it is clear, or a position has failed and the calls are complete. -/
def Between (i : Nat) (b : Board) : Prop :=
  V.Clear root commitment pairs i b ∨
    b.firstFailure < i ∧ b.calls = V.scan root commitment 0 [] pairs

/-- The board while the task of position `i` is at work. -/
def During (i : Nat) : Phase → Board → Prop
  | .fresh, b => V.Between root commitment pairs i b
  | .inspecting, b => V.Clear root commitment pairs i b
  | .reporting _, b | .exchanging _ _, b =>
    b.firstFailure = pairs.length ∧ b.calls = V.scan root commitment 0 [] pairs
  | .returning _, b => V.Between root commitment pairs (i + 1) b

end

theorem drop_of_getElem? {i : Nat} {q : Slice × UInt64} (hp : pairs[i]? = some q) :
    pairs.drop i = q :: pairs.drop (i + 1) := by
  obtain ⟨hi, rfl⟩ := List.getElem?_eq_some_iff.1 hp
  exact List.drop_eq_getElem_cons hi

/-- A position that passes joins those below the next. -/
theorem Clear.pass {i : Nat} {b : Board} {slice : Slice} {expected : UInt64}
    (h : V.Clear root commitment pairs i b) (hp : pairs[i]? = some (slice, expected))
    (hpassed : (inspect (V.after b.calls i) root commitment i slice expected).1 = .passed) :
    V.Clear root commitment pairs (i + 1)
      { b with calls := b.calls ++ (inspect (V.after b.calls i) root commitment i slice expected).2 } := by
  refine ⟨h.1, ?_⟩
  rw [← h.2, drop_of_getElem? hp]
  simp only [scan, if_pos hpassed]

/-- With a position that fails the calls are complete. -/
theorem Clear.fail {i : Nat} {b : Board} {slice : Slice} {expected : UInt64}
    (h : V.Clear root commitment pairs i b) (hp : pairs[i]? = some (slice, expected))
    (hfailed : (inspect (V.after b.calls i) root commitment i slice expected).1 ≠ .passed) :
    b.calls ++ (inspect (V.after b.calls i) root commitment i slice expected).2 =
      V.scan root commitment 0 [] pairs := by
  rw [← h.2, drop_of_getElem? hp]
  simp only [scan, if_neg hfailed]

theorem during_contend {i : Nat} {b : Board} {f : Finding} (hi : i < pairs.length)
    (hb : b.firstFailure = pairs.length ∧ b.calls = V.scan root commitment 0 [] pairs) :
    V.During root commitment pairs i (contend i b f) b := by
  rw [contend, if_pos (hb.1 ▸ hi)]
  exact hb

theorem during_step {i : Nat} {t t' : Phase} {b b' : Board} (hi : i < pairs.length)
    (ht : V.During root commitment pairs i t b)
    (h : SliceCheck.Step (V.after b.calls i) root commitment pairs i b t b' (.running t')) :
    V.During root commitment pairs i t' b' := by
  cases h with
  | skip hlt =>
    rcases ht with ht | ht
    · have hfirst := ht.1
      omega
    · exact Or.inr ⟨Nat.lt_succ_of_lt ht.1, ht.2⟩
  | look hle => exact ht.resolve_right fun hlast => Nat.not_lt.2 hle hlast.1
  | absent hp => exact absurd hi (Nat.not_lt.2 (List.getElem?_eq_none_iff.1 hp))
  | pass hp hpassed => exact Or.inl (Clear.pass ht hp hpassed)
  | fail hp hfailed => exact ⟨ht.1, Clear.fail ht hp hfailed⟩
  | report => exact during_contend hi ht
  | exchange => exact Or.inr ⟨Nat.lt_succ_self i, ht.2⟩
  | retry => exact during_contend hi ht

theorem program_relay :
    (V.program root commitment pairs).Relay pairs.length (V.Between root commitment pairs)
      (V.During root commitment pairs) where
  start _ hb := hb
  running hi ht h := during_step hi ht (step_of_eq h)
  finished _ ht h := by
    cases step_of_eq h with
    | finish => exact ht

/-- The calls of a check of as many slices as assigned are those on the board. -/
theorem verify_snd (pool : Pool) (schedule : Pool.Schedule) {assigned : List UInt64}
    {slices : List Slice} (h : assigned.length = slices.length) :
    (V.verify pool schedule root commitment assigned slices).2 =
      (V.findings pool schedule root commitment (slices.zip assigned)).2 := by
  rw [verify, if_neg (not_not.2 h)]
  simp only
  split <;> rfl

/-- **One worker asks for the proofs of a scan**, whatever the schedule. -/
theorem verify_calls_eq_scan {pool : Pool} (h : pool.workers = 1) (schedule : Pool.Schedule)
    {assigned : List UInt64} {slices : List Slice} (hlength : assigned.length = slices.length) :
    (V.verify pool schedule root commitment assigned slices).2 =
      V.scan root commitment 0 [] (slices.zip assigned) := by
  have hempty : V.Between root commitment (slices.zip assigned) 0
      ⟨(slices.zip assigned).length, []⟩ := Or.inl ⟨rfl, rfl⟩
  rw [verify_snd pool schedule hlength]
  rcases pool.run_relay h program_relay hempty schedule with hlast | hlast
  · have hcalls := hlast.2
    rwa [List.drop_length] at hcalls
  · exact hlast.2

end Verifier

namespace SliceCheck

variable {check : SliceCheck} {root : StorageRoot} {commitment : G1}

/-! ## The plain scan -/

/-- A scan goes on past a position that passes. -/
theorem snd_scan_cons (i : Nat) (slice : Slice) (expected : UInt64) (rest : List (Slice × UInt64)) :
    (scan check root commitment i ((slice, expected) :: rest)).2 =
      (inspect check root commitment i slice expected).2 ++
        if (inspect check root commitment i slice expected).1 = .passed then
          (scan check root commitment (i + 1) rest).2
        else [] := by
  rw [scan, inspect]
  by_cases h : slice.index ≠ expected
  · simp [if_pos h]
  · simp only [if_neg h]
    cases check slice commitment root <;> simp

/-- A verifier that forgets asks as the plain scan does. -/
theorem scan_ofCheck (i : Nat) (asked : List SliceCall) (rest : List (Slice × UInt64)) :
    (Verifier.ofCheck check).scan root commitment i asked rest =
      asked ++ (scan check root commitment i rest).2 := by
  induction rest generalizing i asked with
  | nil => exact (List.append_nil asked).symm
  | cons p rest ih =>
    obtain ⟨slice, expected⟩ := p
    have hafter : (Verifier.ofCheck check).after asked i = check := rfl
    rw [snd_scan_cons, Verifier.scan, hafter]
    by_cases hpassed : (inspect check root commitment i slice expected).1 = .passed
    · simp only [if_pos hpassed, ih, List.append_assoc]
    · simp only [if_neg hpassed, List.append_nil]

/-- One worker asks for the proofs of the plain scan, whatever the schedule. -/
theorem calls_of_one_worker {pool : Pool} (h : pool.workers = 1) (schedule : Pool.Schedule)
    {assigned : List UInt64} {slices : List Slice} (hlength : assigned.length = slices.length) :
    (verify pool check schedule root commitment assigned slices).2 =
      (scan check root commitment 0 (slices.zip assigned)).2 := by
  rw [← Verifier.verify_ofCheck, Verifier.verify_calls_eq_scan h schedule hlength, scan_ofCheck]
  rfl

end SliceCheck

end BlobSigner
