import BlobSigner.Proofs.Bn254.Total
/-!
# What is inverted

Point arithmetic is work that asks for inverses on its way: `Division` keeps the work and its
requests apart, `run` gives it the inverses that there are, and `divisors` lists what they were of.
Each of the rules is the run of such work (`run_addition`, `run_doubling`, `run_multiple`). As the
rules always come to a result, all that they ever invert is other than zero (`exists_tryAdd_division`,
`exists_tryDouble_division`, `exists_tryNsmul_division`).
-/
namespace BlobSigner

/-- Work that asks for inverses on the way to its result. -/
inductive Division (α : Type) where
  | done (a : α)
  | invert (d : Fq) (next : Fq → Division α)

namespace Division

variable {α β : Type}

def bind : Division α → (α → Division β) → Division β
  | done a, f => f a
  | invert d next, f => invert d fun i => (next i).bind f

/-- The first inverse that does not exist ends the work. -/
def run : Division α → Except ArithmeticError α
  | done a => .ok a
  | invert d next =>
    match d.inverse with
    | .error e => .error e
    | .ok i => (next i).run

/-- All that is inverted, in order. -/
def divisors : Division α → List Fq
  | done _ => []
  | invert d next =>
    d :: match d.inverse with
      | .error _ => []
      | .ok i => (next i).divisors

theorem run_bind (w : Division α) (f : α → Division β) :
    (w.bind f).run = match w.run with
      | .error e => .error e
      | .ok a => (f a).run := by
  induction w with
  | done a => rfl
  | invert d next ih =>
    rw [bind, run, run]
    cases d.inverse with
    | error e => rfl
    | ok i => exact ih i

/-- The work comes to this result, and each of its divisors has an inverse. -/
structure Succeeds (w : Division α) (a : α) : Prop where
  run : w.run = .ok a
  divisors : ∀ d ∈ w.divisors, d ≠ 0 ∧ ∃ i, d.inverse = .ok i ∧ i * d = 1

/-- Work that comes to a result has not inverted zero. -/
theorem succeeds_of_run {w : Division α} {a : α} (h : w.run = .ok a) : w.Succeeds a := by
  refine ⟨h, ?_⟩
  induction w with
  | done b => exact nofun
  | invert d next ih =>
    cases hi : d.inverse with
    | error e =>
      rw [run, hi] at h
      cases h
    | ok i =>
      rw [run, hi] at h
      obtain ⟨hne, hone⟩ := Residue.mul_of_inverse hi
      rw [divisors, hi]
      exact List.forall_mem_cons.2 ⟨⟨hne, i, hi, hone⟩, ih i h⟩

end Division

namespace G1

open Division

/-! ## The rules as such work -/

def doubling : G1 → Division G1
  | infinity => done infinity
  | affine x y =>
    if y = 0 then done infinity
    else invert (y + y) fun i => done (thirdPoint (3 * x.square * i) x y x)

def addition : G1 → G1 → Division G1
  | infinity, Q => done Q
  | P, infinity => done P
  | affine x₁ y₁, affine x₂ y₂ =>
    if x₁ = x₂ then
      if y₁ + y₂ = 0 then done infinity else doubling (affine x₁ y₁)
    else invert (x₂ - x₁) fun i => done (thirdPoint ((y₂ - y₁) * i) x₁ y₁ x₂)

def climbing (P : G1) : List Bool → G1 → Division G1
  | [], acc => done acc
  | d :: ds, acc =>
    ((doubling acc).bind fun D => if d then addition D P else done D).bind (climbing P ds)

def multiple (k : Nat) (P : G1) : Division G1 :=
  if P = infinity then done infinity else climbing P (binary k) infinity

theorem run_doubling (P : G1) : (doubling P).run = P.tryDouble := by
  cases P with
  | infinity => rfl
  | affine x y =>
    by_cases hy : y = 0
    · rw [doubling, tryDouble, if_pos hy, if_pos hy]
      rfl
    · rw [doubling, tryDouble, if_neg hy, if_neg hy, run]
      cases (y + y).inverse <;> rfl

theorem run_addition (P Q : G1) : (addition P Q).run = P.tryAdd Q := by
  cases P with
  | infinity => rfl
  | affine x₁ y₁ =>
    cases Q with
    | infinity => rfl
    | affine x₂ y₂ =>
      by_cases hx : x₁ = x₂
      · by_cases hy : y₁ + y₂ = 0
        · rw [addition, tryAdd, if_pos hx, if_pos hx, if_pos hy, if_pos hy]
          rfl
        · rw [addition, tryAdd, if_pos hx, if_pos hx, if_neg hy, if_neg hy, run_doubling]
      · rw [addition, tryAdd, if_neg hx, if_neg hx, run]
        cases (x₂ - x₁).inverse <;> rfl

theorem run_climbing (P : G1) (digits : List Bool) (acc : G1) :
    (climbing P digits acc).run = ladder P digits acc := by
  induction digits generalizing acc with
  | nil => rfl
  | cons d ds ih =>
    have hstep : ((doubling acc).bind fun D => if d then addition D P else done D).run =
        ladderStep P acc d := by
      rw [run_bind, run_doubling, ladderStep]
      cases acc.tryDouble with
      | error e => rfl
      | ok D =>
        cases d with
        | false => rfl
        | true => exact run_addition D P
    rw [climbing, run_bind, hstep, ladder]
    cases ladderStep P acc d with
    | error e => rfl
    | ok acc' => exact ih acc'

theorem run_multiple (k : Nat) (P : G1) : (multiple k P).run = tryNsmul k P := by
  unfold multiple tryNsmul
  split
  · rfl
  · exact run_climbing P (binary k) infinity

/-! ## Zero is never inverted -/

theorem exists_tryAdd_division (P Q : G1) :
    ∃ R, P.tryAdd Q = .ok R ∧ (addition P Q).Succeeds R := by
  obtain ⟨R, h⟩ := P.exists_tryAdd Q
  exact ⟨R, h, succeeds_of_run ((run_addition P Q).trans h)⟩

theorem exists_tryDouble_division (P : G1) :
    ∃ R, P.tryDouble = .ok R ∧ (doubling P).Succeeds R := by
  obtain ⟨R, h⟩ := P.exists_tryDouble
  exact ⟨R, h, succeeds_of_run ((run_doubling P).trans h)⟩

theorem exists_tryNsmul_division (k : Nat) (P : G1) :
    ∃ R, tryNsmul k P = .ok R ∧ (multiple k P).Succeeds R := by
  obtain ⟨R, h⟩ := P.exists_tryNsmul k
  exact ⟨R, h, succeeds_of_run ((run_multiple k P).trans h)⟩

end G1

end BlobSigner
