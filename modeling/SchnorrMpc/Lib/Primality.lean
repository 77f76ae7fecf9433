import Mathlib.NumberTheory.LucasPrimality
import Mathlib.Data.List.Prime

/-! Lucas's primality test as a Boolean check that the kernel evaluates. -/
namespace SchnorrMpc.Lib

/-- `a ^ e % m` by squaring, over the `bits` low bits of the exponent. -/
def powMod (m a : Nat) : Nat → Nat → Nat
  | 0, _ => 1 % m
  | bits + 1, e =>
    let half := powMod m a bits (e / 2)
    let square := half * half % m
    if e % 2 = 1 then square * a % m else square

theorem powMod_eq (m a bits e : Nat) (fits : e < 2 ^ bits) : powMod m a bits e = a ^ e % m := by
  induction bits generalizing e with
  | zero =>
    have : e = 0 := by simpa using fits
    subst this
    simp [powMod]
  | succ bits ih =>
    have half := ih (e / 2) (by rw [pow_succ] at fits; omega)
    have square : a ^ (e / 2) % m * (a ^ (e / 2) % m) % m = a ^ (2 * (e / 2)) % m := by
      rw [← Nat.mul_mod, ← pow_add, two_mul]
    simp only [powMod, half, square]
    split
    next odd =>
      rw [Nat.mod_mul_mod, ← pow_succ]
      congr 2
      omega
    next even =>
      congr 2
      omega

/-- Lucas's test with witness `a` and the prime factors of `p - 1`, with multiplicity. -/
def lucasTest (p a : Nat) (factors : List Nat) : Bool :=
  let bits := Nat.log2 p + 1
  1 < p && factors.prod == p - 1 && powMod p a bits (p - 1) == 1 &&
    factors.all (fun q => powMod p a bits ((p - 1) / q) != 1)

private theorem zmod_pow_eq_one (p a n : Nat) (large : 1 < p) :
    (a : ZMod p) ^ n = 1 ↔ a ^ n % p = 1 := by
  rw [← Nat.cast_pow, ← Nat.cast_one, ZMod.natCast_eq_natCast_iff', Nat.mod_eq_of_lt large]

theorem prime_of_lucasTest (p a : Nat) (factors : List Nat)
    (primes : ∀ q ∈ factors, q.Prime) (passed : lucasTest p a factors = true) : p.Prime := by
  simp only [lucasTest, Bool.and_eq_true, decide_eq_true_eq, List.all_eq_true, beq_iff_eq,
    bne_iff_ne] at passed
  obtain ⟨⟨⟨large, product⟩, full⟩, partials⟩ := passed
  have fits (n : Nat) (below : n ≤ p - 1) : n < 2 ^ (Nat.log2 p + 1) :=
    Nat.lt_of_le_of_lt (below.trans (Nat.sub_le p 1)) Nat.lt_log2_self
  apply lucas_primality p (a : ZMod p)
  · rw [zmod_pow_eq_one p a _ large, ← powMod_eq p a _ _ (fits _ le_rfl)]
    exact full
  · intro q prime divides
    rw [← product] at divides
    obtain ⟨r, member, below⟩ := (Prime.dvd_prod_iff prime.prime).mp divides
    have same : q = r := (Nat.prime_dvd_prime_iff_eq prime (primes r member)).mp below
    subst same
    rw [ne_eq, zmod_pow_eq_one p a _ large, ← powMod_eq p a _ _ (fits _ (Nat.div_le_self _ _))]
    exact partials q member

end SchnorrMpc.Lib
