import SchnorrMpc.Lib.SecretSharing
import SchnorrMpc.Schnorr.Recovery
import SchnorrMpc.Step.Generators

/-!
# Shares below the threshold

A polynomial of degree `d` is handed out as its values at the seeds of the
peers. The values at `d` of them fit every secret in exactly one way. Each draw
is shifted by one before it becomes a coefficient, which permutes the residues
and so takes nothing away from the draws.
-/
namespace SchnorrMpc

open Lib S256

/-- What the random source can return for the coefficients of a polynomial. -/
abbrev Draws (d : Nat) := Fin d → Fin N

/-- The draws in the order in which they are made. -/
def Draws.source {d : Nat} (draws : Draws d) (i : Nat) : Int :=
  if below : i < d then ((draws ⟨i, below⟩).val : Int) else 0

/-- The shares at the points `xs` of a fresh polynomial. -/
def dealShares (d : Nat) (secret : Int) (draws : Draws d) (xs : List Int) : Go (List Int) := do
  let f ← randPoly d secret draws.source
  xs.mapM (fun x => evaluatePoly f x d)

/-! ### Draws and coefficients -/

namespace Draws

variable {d : Nat}

/-- The residues of the coefficients after the constant term. -/
def coefficients (draws : Draws d) (j : Fin d) : ZMod N := ((draws j).val : ZMod N) + 1

theorem coefficients_bijective : Function.Bijective (coefficients (d := d)) := by
  constructor
  · intro draws draws' same
    funext j
    have entry := add_right_cancel (congrFun same j)
    rw [ZMod.natCast_eq_natCast_iff', Nat.mod_eq_of_lt (draws j).isLt,
      Nat.mod_eq_of_lt (draws' j).isLt] at entry
    exact Fin.ext entry
  · intro a
    refine ⟨fun j => ⟨(a j - 1).val, ZMod.val_lt _⟩, funext fun j => ?_⟩
    simp [coefficients]

end Draws

theorem eval_randPoly {d : Nat} (secret x : Int) (draws : Draws d) :
    ∃ f, randPoly d secret draws.source = .ok f ∧ f.length = d + 1 ∧
      (polyOf (d + 1) (residues f)).eval (x : ZMod N) =
        secret + ∑ j : Fin d, draws.coefficients j * (x : ZMod N) ^ (j.val + 1) := by
  refine ⟨_, if_neg (by omega), by simp, ?_⟩
  rw [eval_polyOf, Finset.sum_range_succ', add_comm, Finset.sum_range]
  congr 1
  · simp [residues]
  · refine Finset.sum_congr rfl fun j _ => ?_
    simp [residues, Draws.coefficients, Draws.source]

/-! ### Shares in the field -/

def pointsOf (xs : List Int) (i : Fin xs.length) : ZMod N := ((xs.get i : Int) : ZMod N)

/-- The representatives in `[0, N)` that a list of shares is made of. -/
def representatives {d : Nat} (values : Fin d → ZMod N) : List Int :=
  List.ofFn fun i => ((values i).val : Int)

theorem representatives_injective {d : Nat} :
    Function.Injective (representatives (d := d)) := by
  intro values values' same
  funext i
  have entry := congrFun (List.ofFn_injective same) i
  exact ZMod.val_injective N (by exact_mod_cast entry)

theorem dealShares_eq (secret : Int) (xs : List Int) (draws : Draws xs.length) :
    dealShares xs.length secret draws xs =
      .ok (representatives (sharesAt (pointsOf xs) secret draws.coefficients)) := by
  obtain ⟨f, made, length, -⟩ := eval_randPoly secret 0 draws
  have share (x : Int) : evaluatePoly f x xs.length = .ok
      (((secret + ∑ j, draws.coefficients j * (x : ZMod N) ^ (j.val + 1) : ZMod N).val : Nat) :
        Int) := by
    obtain ⟨f', made', -, value⟩ := eval_randPoly secret x draws
    cases made.symm.trans made'
    obtain ⟨result, returned, nonneg, small, cast⟩ := evaluatePoly_spec length.ge x
    rw [value] at cast
    rw [show ((xs.length + 1 : Nat) : Int) - 1 = xs.length by omega] at returned
    rw [returned, ← cast, ZMod.val_intCast, Int.emod_eq_of_lt nonneg small]
  rw [dealShares, made, Outcome.ok_bind, Outcome.mapM_eq_ok fun x _ => share x]
  congr 1
  apply List.ext_getElem
  · simp [representatives]
  · intro i _ _
    simp [representatives, sharesAt, pointsOf]

theorem dealShares_eq_ok_iff (secret : Int) (xs : List Int) (draws : Draws xs.length)
    (values : Fin xs.length → ZMod N) :
    dealShares xs.length secret draws xs = .ok (representatives values) ↔
      sharesAt (pointsOf xs) secret draws.coefficients = values := by
  rw [dealShares_eq, Outcome.ok.injEq]
  exact representatives_injective.eq_iff

theorem pointsOf_injective {xs : List Int} (distinct : xs.Pairwise fun a b : Int => a % N ≠ b % N) :
    Function.Injective (pointsOf xs) := by
  apply Function.Injective.of_lt_imp_ne
  intro i j before same
  rw [pointsOf, pointsOf, ZMod.intCast_eq_intCast_iff'] at same
  exact List.pairwise_iff_get.mp distinct i j before same

theorem sharesAt_draws_bijective {xs : List Int}
    (distinct : xs.Pairwise fun a b : Int => a % N ≠ b % N) (nonzero : ∀ x ∈ xs, x % (N : Int) ≠ 0)
    (secret : ZMod N) : Function.Bijective fun draws : Draws xs.length =>
      sharesAt (pointsOf xs) secret draws.coefficients := by
  refine (sharesAt_bijective (pointsOf_injective distinct) (fun i zero => ?_) secret).comp
    Draws.coefficients_bijective
  rw [pointsOf, ZMod.intCast_zmod_eq_zero_iff_dvd] at zero
  exact nonzero _ (List.get_mem xs i) (Int.emod_eq_zero_of_dvd zero)

/-- Fewer shares than the threshold say nothing about the secret: whatever `d` of them are, there
is one way to draw a polynomial for any other secret that gives the same ones, and over uniform
draws they are distributed alike. -/
theorem shares_independent_of_secret (d : Nat) (xs : List Int) (count : xs.length = d)
    (distinct : xs.Pairwise fun a b : Int => a % N ≠ b % N) (nonzero : ∀ x ∈ xs, x % (N : Int) ≠ 0)
    (secret secret' : Int) :
    (∀ draws : Draws d, ∃ shares, dealShares d secret draws xs = .ok shares ∧
      ∃! draws' : Draws d, dealShares d secret' draws' xs = .ok shares) ∧
    (PMF.uniformOfFintype (Draws d)).map (dealShares d secret · xs) =
      (PMF.uniformOfFintype (Draws d)).map (dealShares d secret' · xs) := by
  subst count
  have bijective := sharesAt_draws_bijective distinct nonzero
  constructor
  · intro draws
    refine ⟨_, dealShares_eq secret xs draws, ?_⟩
    simp only [dealShares_eq_ok_iff]
    exact (bijective secret').existsUnique _
  · -- either distribution is that of uniform values in the field, written as representatives
    have uniform (secret : Int) : (PMF.uniformOfFintype (Draws xs.length)).map
        (dealShares xs.length secret · xs) = (PMF.uniformOfFintype (Fin xs.length → ZMod N)).map
          fun values => .ok (representatives values) := by
      rw [← map_uniform_of_bijective (bijective secret), PMF.map_comp]
      congr 1
      funext draws
      exact dealShares_eq secret xs draws
    rw [uniform, uniform]

theorem two_shares_independent_of_secret : ∃ shares,
    dealShares 2 5 ![3, 4] [1, 2] = .ok shares ∧
      ∃! draws : Draws 2, dealShares 2 7 draws [1, 2] = .ok shares :=
  (shares_independent_of_secret 2 [1, 2] rfl (by decide) (by decide) 5 7).1 ![3, 4]

/-- What a node has for its peers in the sharing step are the shares at their seeds. -/
theorem RandomPolynomialValue.initializeFrom_deals {d : Nat} {poly poly' : RandomPolynomialValue}
    {peers : List PeerInfo} {secret : Int} {draws : Draws d}
    (size : poly.randCoefficient.length = d + 1) (count : poly.polyValue.length = peers.length)
    (deals : poly.initializeFrom peers secret draws.source = .ok poly') :
    dealShares d secret draws (peers.map fun peer => (peer.seed : Int)) = .ok poly'.polyValue := by
  obtain ⟨f, made, length, -⟩ := eval_randPoly secret 0 draws
  choose value returned _ _ _ using evaluatePoly_spec (k := d + 1) length.ge
  have degree : ((d + 1 : Nat) : Int) - 1 = d := by omega
  rw [degree] at returned
  have whole : f.take (d + 1) ++ poly.randCoefficient.drop f.length = f := by
    rw [List.take_of_length_le length.le, List.drop_eq_nil_of_le (by omega), List.append_nil]
  simp only [initializeFrom, size, degree, made, Outcome.ok_bind, whole, count] at deals
  have read : ((List.range peers.length).mapM fun i => do
      let peer ← Outcome.index peers i
      evaluatePoly f peer.seed d : Go (List Int)) =
      .ok ((List.range peers.length).map fun i => value ((peers.map PeerInfo.seed).getD i 0)) := by
    apply Outcome.mapM_eq_ok
    intro i member
    have found := List.getElem?_eq_getElem (List.mem_range.mp member)
    rw [Outcome.index_of_getElem? found, Outcome.ok_bind, returned]
    simp [List.getD_eq_getElem?_getD, found]
  rw [read] at deals
  cases deals
  rw [dealShares, made, Outcome.ok_bind, Outcome.mapM_eq_ok fun x _ => returned x]
  congr 1
  apply List.ext_getElem
  · simp
  · intro i below _
    have inside : i < peers.length := by simpa using below
    simp [inside]

end SchnorrMpc
