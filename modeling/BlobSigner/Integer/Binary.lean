/-!
# Binary digits

Exponents and multipliers are read bit by bit, the leading one first; zero has no digits.
-/
namespace BlobSigner

/-- The binary digits of `n`, most significant first, without leading zeros. -/
def binary (n : Nat) : List Bool :=
  if _ : n = 0 then [] else binary (n / 2) ++ [n % 2 == 1]
termination_by n

@[simp] theorem binary_zero : binary 0 = [] := by rw [binary]; rfl

theorem binary_of_pos {n : Nat} (h : n ≠ 0) : binary n = binary (n / 2) ++ [n % 2 == 1] := by
  rw [binary]; simp [h]

/-- Read digit by digit, the digits are the number. -/
theorem foldl_binary (n : Nat) : (binary n).foldl (fun k d => 2 * k + d.toNat) 0 = n := by
  induction n using Nat.strongRecOn with
  | _ n ih =>
    by_cases h : n = 0
    · simp [h]
    · have hdigit : (n % 2 == 1).toNat = n % 2 := by
        rcases Nat.mod_two_eq_zero_or_one n with h2 | h2 <;> simp [h2]
      rw [binary_of_pos h, List.foldl_append, ih (n / 2) (by omega), List.foldl_cons,
        List.foldl_nil, hdigit]
      omega

end BlobSigner
