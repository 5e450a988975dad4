import BlobSigner.Bn254.Field
import Mathlib.Data.List.Prime
import Mathlib.NumberTheory.LucasPrimality
import Mathlib.Tactic.NormNum.Prime
import Mathlib.Tactic.ReduceModChar
/-!
# The two moduli are prime

By Lucas's test: `a` has the order `p - 1` modulo `p` if its power `p - 1` is one and no power
`(p - 1) / x` is, for the prime factors `x` of `p - 1`. These are certified in the same way, down to
factors that trial division settles.
-/
namespace BlobSigner

/-- Lucas's test, with the prime factors of `p - 1` in a list. -/
theorem prime_of_factors {p : Nat} (a : ZMod p) (factors : List Nat)
    (hprime : ∀ x ∈ factors, x.Prime) (hprod : factors.prod = p - 1) (hone : a ^ (p - 1) = 1)
    (hne : ∀ x ∈ factors, a ^ ((p - 1) / x) ≠ 1) : p.Prime := by
  refine lucas_primality p a hone fun x hx hdvd => ?_
  rw [← hprod] at hdvd
  obtain ⟨y, hy, hxy⟩ := (Prime.dvd_prod_iff hx.prime).1 hdvd
  rw [(Nat.prime_dvd_prime_iff_eq hx (hprime y hy)).1 hxy]
  exact hne y hy

theorem prime_173171039 : Nat.Prime 173171039 := by
  refine prime_of_factors 13 [2, 73, 89, 13327] ?_ (by norm_num) (by norm_num; reduce_mod_char) ?_
  · simp only [List.forall_mem_cons]
    norm_num
  · simp only [List.forall_mem_cons]
    norm_num
    refine ⟨?_, ?_, ?_, ?_⟩ <;> reduce_mod_char <;> decide

theorem prime_405928799 : Nat.Prime 405928799 := by
  refine prime_of_factors 22 [2, 11, 3691, 4999] ?_ (by norm_num) (by norm_num; reduce_mod_char) ?_
  · simp only [List.forall_mem_cons]
    norm_num
  · simp only [List.forall_mem_cons]
    norm_num
    refine ⟨?_, ?_, ?_, ?_⟩ <;> reduce_mod_char <;> decide

theorem prime_1263766531 : Nat.Prime 1263766531 := by
  refine prime_of_factors 10 [2, 3, 5, 13, 911, 3557] ?_ (by norm_num)
    (by norm_num; reduce_mod_char) ?_
  · simp only [List.forall_mem_cons]
    norm_num
  · simp only [List.forall_mem_cons]
    norm_num
    refine ⟨?_, ?_, ?_, ?_, ?_, ?_⟩ <;> reduce_mod_char <;> decide

theorem prime_35385462869 : Nat.Prime 35385462869 := by
  refine prime_of_factors 2 [2, 2, 7, 1263766531] ?_ (by norm_num) (by norm_num; reduce_mod_char) ?_
  · simp only [List.forall_mem_cons, prime_1263766531]
    norm_num
  · simp only [List.forall_mem_cons]
    norm_num
    refine ⟨?_, ?_, ?_⟩ <;> reduce_mod_char <;> decide

theorem prime_11465965001 : Nat.Prime 11465965001 := by
  refine prime_of_factors 3 [2, 2, 2, 5, 5, 5, 5, 7, 327599] ?_ (by norm_num)
    (by norm_num; reduce_mod_char) ?_
  · simp only [List.forall_mem_cons]
    norm_num
  · simp only [List.forall_mem_cons]
    norm_num
    refine ⟨?_, ?_, ?_, ?_⟩ <;> reduce_mod_char <;> decide

theorem prime_2480874801745591 : Nat.Prime 2480874801745591 := by
  refine prime_of_factors 6 [2, 3, 3, 5, 19, 41, 35385462869] ?_ (by norm_num)
    (by norm_num; reduce_mod_char) ?_
  · simp only [List.forall_mem_cons, prime_35385462869]
    norm_num
  · simp only [List.forall_mem_cons]
    norm_num
    refine ⟨?_, ?_, ?_, ?_, ?_, ?_⟩ <;> reduce_mod_char <;> decide

theorem prime_13427688667394608761327070753331941386769 :
    Nat.Prime 13427688667394608761327070753331941386769 := by
  refine prime_of_factors 17
    [2, 2, 2, 2, 3, 7, 11, 1853641, 4562087, 173171039, 2480874801745591] ?_ (by norm_num)
    (by norm_num; reduce_mod_char) ?_
  · simp only [List.forall_mem_cons, prime_173171039, prime_2480874801745591]
    norm_num
  · simp only [List.forall_mem_cons]
    norm_num
    refine ⟨?_, ?_, ?_, ?_, ?_, ?_, ?_, ?_⟩ <;> reduce_mod_char <;> decide

theorem prime_639533339 : Nat.Prime 639533339 := by
  refine prime_of_factors 2 [2, 229, 853, 1637] ?_ (by norm_num) (by norm_num; reduce_mod_char) ?_
  · simp only [List.forall_mem_cons]
    norm_num
  · simp only [List.forall_mem_cons]
    norm_num
    refine ⟨?_, ?_, ?_, ?_⟩ <;> reduce_mod_char <;> decide

theorem prime_65865678001877903 : Nat.Prime 65865678001877903 := by
  refine prime_of_factors 5 [2, 83, 379, 1637, 639533339] ?_ (by norm_num) (by norm_num; reduce_mod_char) ?_
  · simp only [List.forall_mem_cons, prime_639533339]
    norm_num
  · simp only [List.forall_mem_cons]
    norm_num
    refine ⟨?_, ?_, ?_, ?_, ?_⟩ <;> reduce_mod_char <;> decide

theorem prime_12048837557 : Nat.Prime 12048837557 := by
  refine prime_of_factors 2 [2, 2, 7, 7, 661, 93001] ?_ (by norm_num) (by norm_num; reduce_mod_char) ?_
  · simp only [List.forall_mem_cons]
    norm_num
  · simp only [List.forall_mem_cons]
    norm_num
    refine ⟨?_, ?_, ?_, ?_⟩ <;> reduce_mod_char <;> decide

theorem prime_5156902474397 : Nat.Prime 5156902474397 := by
  refine prime_of_factors 2 [2, 2, 107, 12048837557] ?_ (by norm_num) (by norm_num; reduce_mod_char) ?_
  · simp only [List.forall_mem_cons, prime_12048837557]
    norm_num
  · simp only [List.forall_mem_cons]
    norm_num
    refine ⟨?_, ?_, ?_⟩ <;> reduce_mod_char <;> decide

theorem prime_1670836401704629 : Nat.Prime 1670836401704629 := by
  refine prime_of_factors 2 [2, 2, 3, 3, 3, 3, 5156902474397] ?_ (by norm_num) (by norm_num; reduce_mod_char) ?_
  · simp only [List.forall_mem_cons, prime_5156902474397]
    norm_num
  · simp only [List.forall_mem_cons]
    norm_num
    refine ⟨?_, ?_, ?_⟩ <;> reduce_mod_char <;> decide

theorem prime_13818364434197438864469338081 : Nat.Prime 13818364434197438864469338081 := by
  refine prime_of_factors 3 [2, 2, 2, 2, 2, 5, 823, 1593227, 65865678001877903] ?_ (by norm_num) (by norm_num; reduce_mod_char) ?_
  · simp only [List.forall_mem_cons, prime_65865678001877903]
    norm_num
  · simp only [List.forall_mem_cons]
    norm_num
    refine ⟨?_, ?_, ?_, ?_, ?_⟩ <;> reduce_mod_char <;> decide

theorem prime_q : q.Prime := by
  unfold q
  refine prime_of_factors 3 [2, 3, 3, 13, 29, 67, 229, 311, 983, 11003, 405928799, 11465965001,
    13427688667394608761327070753331941386769] ?_ (by norm_num) (by norm_num; reduce_mod_char) ?_
  · simp only [List.forall_mem_cons, prime_405928799, prime_11465965001,
      prime_13427688667394608761327070753331941386769]
    norm_num
  · simp only [List.forall_mem_cons]
    norm_num
    refine ⟨?_, ?_, ?_, ?_, ?_, ?_, ?_, ?_, ?_, ?_, ?_, ?_⟩ <;> reduce_mod_char <;> decide

theorem prime_r : r.Prime := by
  unfold r
  refine prime_of_factors 5 (List.replicate 28 2 ++ [3, 3, 13, 29, 983, 11003, 237073, 405928799,
    1670836401704629, 13818364434197438864469338081]) ?_ (by norm_num)
    (by norm_num; reduce_mod_char) ?_
  · simp only [List.forall_mem_append, List.forall_mem_cons, prime_405928799,
      prime_1670836401704629, prime_13818364434197438864469338081]
    norm_num
  · simp only [List.forall_mem_append, List.forall_mem_cons]
    norm_num
    refine ⟨?_, ?_, ?_, ?_, ?_, ?_, ?_, ?_, ?_, ?_⟩ <;> reduce_mod_char <;> decide

end BlobSigner
