import Mathlib.LinearAlgebra.Lagrange

/-!
# Interpolation at zero

The value at zero of a polynomial of degree below the number of nodes is a
weighted sum of its values at the nodes. The weights depend on the nodes only,
so the same sum recovers a point that is a multiple of a fixed generator from
the multiples that the polynomial takes at the nodes.
-/
namespace SchnorrMpc.Lib

open Polynomial

variable {F ι : Type*} [Field F] [DecidableEq ι]

/-- The weight of node `i` in the value at zero. -/
def zeroWeight (s : Finset ι) (x : ι → F) (i : ι) : F :=
  ∏ j ∈ s.erase i, x j * (x j - x i)⁻¹

theorem zeroWeight_congr {s : Finset ι} {x y : ι → F} (same : ∀ j ∈ s, x j = y j) {i : ι}
    (member : i ∈ s) : zeroWeight s x i = zeroWeight s y i := by
  refine Finset.prod_congr rfl fun j other => ?_
  rw [same i member, same j (Finset.mem_of_mem_erase other)]

theorem zeroWeight_eq_eval_basis (s : Finset ι) (x : ι → F) (i : ι) :
    zeroWeight s x i = (Lagrange.basis s x i).eval 0 := by
  simp only [zeroWeight, Lagrange.basis, eval_prod]
  refine Finset.prod_congr rfl fun j _ => ?_
  have flip : (x j - x i)⁻¹ = -(x i - x j)⁻¹ := by rw [← neg_sub, inv_neg]
  simp only [Lagrange.basisDivisor, eval_mul, eval_C, eval_sub, eval_X, zero_sub, flip]
  ring

theorem sum_zeroWeight_mul_eval {s : Finset ι} {x : ι → F} (distinct : Set.InjOn x s)
    {p : F[X]} (degree : p.degree < s.card) :
    ∑ i ∈ s, zeroWeight s x i * p.eval (x i) = p.eval 0 := by
  have through := congrArg (eval 0) (Lagrange.eq_interpolate distinct degree)
  rw [through, Lagrange.interpolate_apply, eval_finsetSum]
  refine Finset.sum_congr rfl fun i _ => ?_
  rw [eval_mul, eval_C, zeroWeight_eq_eval_basis, mul_comm]

theorem sum_zeroWeight_smul_eval {V : Type*} [AddCommGroup V] [Module F V]
    {s : Finset ι} {x : ι → F} (distinct : Set.InjOn x s)
    {p : F[X]} (degree : p.degree < s.card) (generator : V) :
    ∑ i ∈ s, zeroWeight s x i • p.eval (x i) • generator = p.eval 0 • generator := by
  rw [← sum_zeroWeight_mul_eval distinct degree, Finset.sum_smul]
  exact Finset.sum_congr rfl fun i _ => smul_smul _ _ _

/-- The polynomial with the `k` coefficients `a 0, …, a (k - 1)`. -/
noncomputable def polyOf (k : ℕ) (a : ℕ → F) : F[X] :=
  ∑ i ∈ Finset.range k, C (a i) * X ^ i

theorem degree_polyOf_lt (k : ℕ) (a : ℕ → F) : (polyOf k a).degree < k := by
  rw [polyOf, Finset.sum_range]
  exact degree_sum_fin_lt fun i : Fin k => a i

theorem eval_polyOf (k : ℕ) (a : ℕ → F) (x : F) :
    (polyOf k a).eval x = ∑ i ∈ Finset.range k, a i * x ^ i := by
  simp [polyOf, eval_finsetSum]

theorem eval_polyOf_zero (k : ℕ) (a : ℕ → F) (positive : 0 < k) : (polyOf k a).eval 0 = a 0 := by
  rw [eval_polyOf, Finset.sum_eq_single_of_mem 0 (Finset.mem_range.mpr positive)]
  · simp
  · intro i _ nonzero
    simp [nonzero]

end SchnorrMpc.Lib
