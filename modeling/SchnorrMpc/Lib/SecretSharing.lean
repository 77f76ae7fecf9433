import Mathlib.LinearAlgebra.Vandermonde
import Mathlib.LinearAlgebra.Matrix.NonsingularInverse
import Mathlib.Probability.Distributions.Uniform

/-!
# Secrecy of a sharing below the threshold

A secret is the constant term of a polynomial with `d` further coefficients.
The values at `d` distinct points other than zero determine these coefficients,
and every list of values occurs. So the coefficients that explain what is seen
exist for every secret and are unique, and with uniform coefficients what is
seen has the same distribution whatever the secret is.
-/
namespace SchnorrMpc.Lib

variable {F : Type*} [Field F] {d : ℕ}

/-- The values at the points `x` for the coefficients `a` after the constant term. -/
def sharesAt (x : Fin d → F) (secret : F) (a : Fin d → F) (i : Fin d) : F :=
  secret + ∑ j : Fin d, a j * x i ^ (j.val + 1)

theorem sharesAt_eq_mulVec (x : Fin d → F) (secret : F) (a : Fin d → F) (i : Fin d) :
    sharesAt x secret a i = secret + x i * (Matrix.vandermonde x).mulVec a i := by
  simp only [sharesAt, Matrix.mulVec, dotProduct, Matrix.vandermonde_apply, Finset.mul_sum]
  congr 1
  refine Finset.sum_congr rfl fun j _ => ?_
  ring

variable {x : Fin d → F}

theorem sharesAt_bijective (distinct : Function.Injective x) (nonzero : ∀ i, x i ≠ 0)
    (secret : F) : Function.Bijective (sharesAt x secret) := by
  have unit : IsUnit (Matrix.vandermonde x) := by
    rw [Matrix.isUnit_iff_isUnit_det, isUnit_iff_ne_zero]
    exact Matrix.det_vandermonde_ne_zero_iff.mpr distinct
  constructor
  · intro a b same
    apply Matrix.mulVec_injective_of_isUnit unit
    funext i
    have entry := congrFun same i
    rw [sharesAt_eq_mulVec, sharesAt_eq_mulVec, add_right_inj] at entry
    exact mul_left_cancel₀ (nonzero i) entry
  · intro values
    -- the system is solved for what is left of a value without the secret
    obtain ⟨a, solves⟩ := (Matrix.mulVec_surjective_iff_isUnit.mpr unit)
      fun i => (x i)⁻¹ * (values i - secret)
    refine ⟨a, funext fun i => ?_⟩
    rw [sharesAt_eq_mulVec, congrFun solves i, mul_inv_cancel_left₀ (nonzero i)]
    ring

theorem map_uniform_of_bijective {α β : Type*} [Fintype α] [Nonempty α] [Fintype β] [Nonempty β]
    {f : α → β} (bijective : Function.Bijective f) :
    (PMF.uniformOfFintype α).map f = PMF.uniformOfFintype β := by
  classical
  ext b
  obtain ⟨a, rfl⟩ := bijective.surjective b
  rw [PMF.map_apply, tsum_eq_single a]
  · simp [Fintype.card_of_bijective bijective]
  · intro other differs
    exact if_neg fun same => differs (bijective.injective same).symm

end SchnorrMpc.Lib
