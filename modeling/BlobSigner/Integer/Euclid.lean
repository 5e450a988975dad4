/-!
# The extended Euclidean algorithm

`bezout m a` is the greatest common divisor of `m` and `a`, with a coefficient that brings `a` to
it modulo `m`.
-/
namespace BlobSigner

/-- One remainder after the other; `t₀` and `t₁` bring `a` to `r₀` and `r₁` modulo the modulus. -/
def euclid (r₀ r₁ : Nat) (t₀ t₁ : Int) : Nat × Int :=
  if _ : r₁ = 0 then (r₀, t₀)
  else euclid r₁ (r₀ % r₁) t₁ (t₀ - (r₀ / r₁ : Nat) * t₁)
termination_by r₁
decreasing_by exact Nat.mod_lt _ (by omega)

def bezout (m a : Nat) : Nat × Int := euclid m a 0 1

end BlobSigner
