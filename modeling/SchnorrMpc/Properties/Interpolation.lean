import SchnorrMpc.Crypto.Reference
import SchnorrMpc.Schnorr.Recovery

/-!
# Interpolation with the code's own arithmetic

Scalar shares give the secret back whichever points they belong to. Shares in
the exponent are added up by `BitCurve.Add`, which has no case for equal and for
opposite points, so there the sum comes out unless one of its parts meets the
next term.
-/
namespace SchnorrMpc

open Lib S256

/-! ### Scalars -/

theorem Nodes.of_pairwise {x : List Int} {k : Nat} (enough : k ≤ x.length)
    (distinct : (x.take k).Pairwise fun a b : Int => a % N ≠ b % N) : Nodes x k := by
  refine ⟨enough, ?_⟩
  -- two positions with one residue would be an ordered pair of equal ones
  have apart (i j : Nat) (before : i < j) (below : j < k) : residues x i ≠ residues x j := by
    have jLt : j < (x.take k).length := by
      rw [List.length_take]
      omega
    have differ := List.pairwise_iff_getElem.mp distinct i j (before.trans jLt) jLt before
    rw [List.getElem_take, List.getElem_take] at differ
    rw [residues_of_getElem? (List.getElem?_eq_getElem (by omega)),
      residues_of_getElem? (List.getElem?_eq_getElem (by omega)), ne_eq,
      ZMod.intCast_eq_intCast_iff']
    exact differ
  intro i iBelow j jBelow same
  have iLt : i < k := by simpa using iBelow
  have jLt : j < k := by simpa using jBelow
  rcases lt_trichotomy i j with before | here | after
  · exact absurd same (apart i j before jLt)
  · exact here
  · exact absurd same.symm (apart j i after iLt)

theorem Nodes.modInverse {x : List Int} {k i j : Nat} (nodes : Nodes x k) (iBelow : i < k)
    (jBelow : j < k) (other : i ≠ j) :
    ∃ inverse, SchnorrMpc.modInverse (x.getD j 0 - x.getD i 0) N = some inverse ∧
      0 ≤ inverse ∧ inverse < N ∧ (x.getD j 0 - x.getD i 0) * inverse % N = 1 := by
  have nonzero : ((x.getD j 0 - x.getD i 0 : Int) : ZMod N) ≠ 0 := by
    rw [Int.cast_sub, sub_ne_zero]
    intro same
    exact other (nodes.distinct (by simpa using iBelow) (by simpa using jBelow) same.symm)
  obtain ⟨inverse, found, -⟩ := modInverse_of_ne_zero nonzero
  have range := modInverse_range N_pos found
  exact ⟨inverse, found, range.1, range.2, modInverse_mul found⟩

theorem evaluatePoly_mapM {f : Polynomial} {k : Nat} (enough : k ≤ f.length) (x : List Int) :
    ∃ shares : List Int, x.mapM (fun xi => evaluatePoly f xi ((k : Int) - 1)) = .ok shares ∧
      shares.length = x.length ∧
      ∀ i < x.length, residues shares i = (polyOf k (residues f)).eval (residues x i) := by
  choose value returned _ _ isValue using evaluatePoly_spec (k := k) enough
  refine ⟨x.map value, Outcome.mapM_eq_ok fun xi _ => returned xi, by simp, fun i below => ?_⟩
  have found := List.getElem?_eq_getElem below
  have share : (x.map value)[i]? = some (value (x.get ⟨i, below⟩)) := by
    rw [List.getElem?_map, found]
    rfl
  rw [residues_of_getElem? share, residues_of_getElem? found, isValue]
  rfl

/-- Interpolation gives the secret back from shares at any distinct points, in any order. -/
theorem lagrange_recovers {d : Nat} {f : Polynomial} {x : List Int}
    (coefficients : f.length = d + 1) (enough : d + 1 ≤ x.length)
    (distinct : (x.take (d + 1)).Pairwise fun a b : Int => a % N ≠ b % N) :
    ∃ shares : List Int, x.mapM (fun xi => evaluatePoly f xi d) = .ok shares ∧
      lagrange shares x d = .ok (f.getD 0 0 % N) ∧
      (∀ i j, i ≤ d → j ≤ d → i ≠ j → ∃ inverse,
        modInverse (x.getD j 0 - x.getD i 0) N = some inverse ∧ 0 ≤ inverse ∧ inverse < N ∧
          (x.getD j 0 - x.getD i 0) * inverse % N = 1) ∧
      ∀ y, d + 1 ≤ y.length → (y.take (d + 1)).Pairwise (fun a b : Int => a % N ≠ b % N) →
        ∃ others, y.mapM (fun yi => evaluatePoly f yi d) = .ok others ∧
          lagrange others y d = lagrange shares x d := by
  have degree : (((d + 1 : Nat) : Int) - 1) = d := by push_cast; ring
  -- one list of points, before two of them are compared
  have recovers (y : List Int) (long : d + 1 ≤ y.length)
      (apart : (y.take (d + 1)).Pairwise fun a b : Int => a % N ≠ b % N) :
      ∃ shares : List Int, y.mapM (fun yi => evaluatePoly f yi d) = .ok shares ∧
        lagrange shares y d = .ok (f.getD 0 0 % N) := by
    have nodes := Nodes.of_pairwise long apart
    obtain ⟨shares, returned, length, values⟩ := evaluatePoly_mapM coefficients.ge y
    obtain ⟨secret, interpolated, nonneg, below, isSecret⟩ :=
      lagrange_spec (f := shares) nodes (length ▸ long)
    rw [degree] at returned interpolated
    refine ⟨shares, returned, ?_⟩
    have sum : (secret : ZMod N) = (f.getD 0 0 : Int) := by
      have through := sum_zeroWeight_mul_eval nodes.distinct (p := polyOf (d + 1) (residues f))
        (by simpa using degree_polyOf_lt (d + 1) (residues f))
      rw [eval_polyOf_zero _ _ d.succ_pos] at through
      rw [isSecret, ← show residues f 0 = ((f.getD 0 0 : Int) : ZMod N) from rfl, ← through]
      refine Finset.sum_congr rfl fun i member => ?_
      rw [values i ((Finset.mem_range.mp member).trans_le long)]
    rw [interpolated, ← Int.emod_eq_of_lt nonneg below, (ZMod.intCast_eq_intCast_iff' _ _ N).mp sum]
  obtain ⟨shares, returned, secret⟩ := recovers x enough distinct
  refine ⟨shares, returned, secret, ?_, fun y long apart => ?_⟩
  · intro i j iLe jLe other
    exact (Nodes.of_pairwise enough distinct).modInverse (Nat.lt_succ_of_le iLe)
      (Nat.lt_succ_of_le jLe) other
  · obtain ⟨others, same, again⟩ := recovers y long apart
    exact ⟨others, same, again.trans secret.symm⟩

theorem lagrange_recovers_line :
    ((([-1, 5, 7] : List Int).take 2).Pairwise fun a b : Int => a % N ≠ b % N) ∧
      ∃ shares : List Int, [-1, 5, 7].mapM (fun xi => evaluatePoly [3, -2] xi 1) = .ok shares ∧
        lagrange shares [-1, 5, 7] 1 = .ok 3 := by
  have distinct : (([-1, 5, 7] : List Int).take 2).Pairwise fun a b : Int => a % N ≠ b % N := by
    decide +kernel
  obtain ⟨shares, returned, secret, -⟩ :=
    lagrange_recovers (d := 1) (f := [3, -2]) rfl (by decide) distinct
  exact ⟨distinct, shares, returned, secret⟩

/-! ### Points -/

section

variable {ecmult : Ecmult}

/-- The share of a point in the sum. -/
def weighted (b : List Int) (Q : List Group) (i : Nat) : Group := b.getD i 0 • Q.getD i 0

def partialSum (b : List Int) (Q : List Group) (n : Nat) : Group :=
  ∑ i ∈ Finset.range n, weighted b Q i

theorem zeroWeight_ne_zero {x : List Int} {k : Nat} (nodes : Nodes x k)
    (nonzero : ∀ a ∈ x, a % N ≠ 0) {i : Nat} (below : i < k) :
    zeroWeight (Finset.range k) (residues x) i ≠ 0 := by
  refine Finset.prod_ne_zero_iff.mpr fun j member => ?_
  obtain ⟨other, inside⟩ := Finset.mem_erase.mp member
  have jBelow := Finset.mem_range.mp inside
  have found := List.getElem?_eq_getElem (jBelow.trans_le nodes.enough)
  refine mul_ne_zero ?_ (inv_ne_zero (sub_ne_zero.mpr fun same => ?_))
  · rw [residues_of_getElem? found, ne_eq, ← Int.cast_zero, ZMod.intCast_eq_intCast_iff',
      Int.zero_emod]
    exact nonzero _ (List.mem_of_getElem? found)
  · exact other (nodes.distinct (by simpa using jBelow) (by simpa using below) same)

theorem scalarMult_weighted (multiplies : BitCurve.EcmultLaw ecmult) {R : S256.Group}
    (finite : R ≠ 0) {k : Int} (positive : 0 < k) (below : k < N) :
    BitCurve.scalarMult ecmult (affine R) (intBytes k) = .ok (affine (k • R)) ∧ k • R ≠ 0 := by
  obtain ⟨n, rfl⟩ := Int.eq_ofNat_of_zero_le positive.le
  have nPositive : 0 < n := Int.natCast_pos.mp positive
  have nBelow : n < N := Int.ofNat_lt.mp below
  rw [natCast_zsmul]
  constructor
  · exact BitCurve.scalarMult_affine multiplies finite nPositive nBelow
  · rw [ne_eq, nsmul_eq_zero_iff finite]
    exact Nat.not_dvd_of_pos_of_lt nPositive nBelow

/-- The next term is the sum so far or its opposite. -/
def Collides (b : List Int) (Q : List Group) (n : Nat) : Prop :=
  partialSum b Q n = weighted b Q n ∨ partialSum b Q n = -weighted b Q n

/-- Every term of the sum is there, and is a point that has coordinates. -/
def Terms (ecmult : Ecmult) (b : List Int)
    (Q : List Group) (d : Nat) : Prop :=
  ∀ i ≤ d, weighted b Q i ≠ 0 ∧ ∃ k R, b[i]? = some k ∧ Q[i]? = some R ∧
    BitCurve.scalarMult ecmult (affine R) (intBytes k) = .ok (affine (weighted b Q i))

/-- The accumulator after `n` rounds: the sum of the terms so far, or the node has crashed. -/
theorem lagrangeECC_rounds {b : List Int} {Q : List Group} {d : Nat} (terms : Terms ecmult b Q d)
    (n : Nat) (within : n ≤ d) :
    let loop : Go Point := (List.range' 1 n).foldlM (fun sum i => do
      let sigi ← Outcome.index (Q.map affine) i
      let bi ← Outcome.index b i
      let temp ← BitCurve.scalarMult ecmult sigi (intBytes bi)
      BitCurve.add sum temp) (affine (weighted b Q 0))
    (∀ i, 1 ≤ i → i ≤ n → ¬Collides b Q i) ∧ partialSum b Q (n + 1) ≠ 0 ∧
        loop = .ok (affine (partialSum b Q (n + 1))) ∨
      (∃ i, 1 ≤ i ∧ i ≤ n ∧ Collides b Q i) ∧ loop = .panic := by
  induction n with
  | zero =>
    have only : partialSum b Q 1 = weighted b Q 0 := Finset.sum_range_one _
    left
    refine ⟨fun i _ _ => by omega, ?_, ?_⟩
    · rw [only]
      exact (terms 0 (Nat.zero_le d)).1
    · rw [only]
      rfl
  | succ n ih =>
    simp only [List.range'_concat, List.foldlM_append, Nat.one_mul, Nat.add_comm 1 n]
    rcases ih (Nat.le_of_succ_le within) with ⟨free, finite, sum⟩ |
      ⟨⟨i, first, last, collides⟩, crash⟩
    -- so far the sum is a finite point, and the next term is one
    · obtain ⟨nonzero, k, R, isWeight, isPoint, term⟩ := terms (n + 1) within
      have point : (Q.map affine)[n + 1]? = some (affine R) := by
        rw [List.getElem?_map, isPoint]
        rfl
      simp only [sum, Outcome.ok_bind, List.foldlM_cons, List.foldlM_nil,
        Outcome.index_of_getElem? point, Outcome.index_of_getElem? isWeight, term]
      by_cases collides : Collides b Q (n + 1)
      -- equal points are not doubled, and opposite ones have no sum
      · right
        refine ⟨⟨n + 1, Nat.le_add_left 1 n, le_rfl, collides⟩, ?_⟩
        rw [BitCurve.add_affine_panic collides, Outcome.panic_bind]
      · left
        obtain ⟨different, independent⟩ := not_or.mp collides
        have longer : partialSum b Q (n + 1 + 1) =
            partialSum b Q (n + 1) + weighted b Q (n + 1) := Finset.sum_range_succ _ _
        refine ⟨fun i first last => ?_, ?_, ?_⟩
        · rcases Nat.le_succ_iff.mp last with before | rfl
          · exact free i first before
          · exact collides
        · rw [longer]
          exact fun zero => independent (eq_neg_of_add_eq_zero_left zero)
        · rw [longer, BitCurve.add_affine finite nonzero different independent]
          rfl
    · right
      refine ⟨⟨i, first, Nat.le_succ_of_le last, collides⟩, ?_⟩
      rw [crash]
      rfl

/-- Interpolation in the exponent gives the sum of the weighted points, exactly when no part of
the sum is the next term or its opposite. -/
theorem lagrangeECC_sums_iff (multiplies : BitCurve.EcmultLaw ecmult) {d : Nat} {x : List Int}
    {Q : List Group} (seeds : x.length = d + 1)
    (distinct : x.Pairwise fun a b : Int => a % N ≠ b % N) (nonzero : ∀ a ∈ x, a % N ≠ 0)
    (count : Q.length = d + 1) (finite : ∀ R ∈ Q, R ≠ 0) :
    ∃ b, evaluateB x d = .ok b ∧ (partialSum b Q (d + 1) ≠ 0 →
      (lagrangeECC (BitCurve.curve ecmult) (Q.map affine) x d =
          .ok (affine (partialSum b Q (d + 1))) ↔
        ∀ i, 1 ≤ i → i ≤ d → ¬Collides b Q i)) := by
  have nodes : Nodes x (d + 1) := Nodes.of_pairwise seeds.ge (by
    rw [List.take_of_length_le seeds.le]
    exact distinct)
  obtain ⟨b, returned, weights⟩ := evaluateB_spec nodes
  have degree : (((d + 1 : Nat) : Int) - 1) = d := by push_cast; ring
  rw [degree] at returned
  refine ⟨b, returned, fun _ => ?_⟩
  have terms : Terms ecmult b Q d := by
    intro i within
    obtain ⟨k, isWeight, nonneg, below, residue⟩ := weights i (Nat.lt_succ_of_le within)
    have inside : i < Q.length := count ▸ Nat.lt_succ_of_le within
    have isPoint := List.getElem?_eq_getElem inside
    -- no weight is zero, as no seed is
    have positive : 0 < k := by
      refine lt_of_le_of_ne nonneg fun zero => ?_
      rw [← zero, Int.cast_zero] at residue
      exact zeroWeight_ne_zero nodes nonzero (Nat.lt_succ_of_le within) residue.symm
    have term : weighted b Q i = k • Q.get ⟨i, inside⟩ := by
      simp [weighted, List.getD_eq_getElem?_getD, isWeight, isPoint]
    obtain ⟨product, some⟩ :=
      scalarMult_weighted multiplies (finite _ (List.get_mem Q ⟨i, inside⟩)) positive below
    rw [term]
    exact ⟨some, k, _, isWeight, isPoint, product⟩
  obtain ⟨-, k, R, isWeight, isPoint, first⟩ := terms 0 (Nat.zero_le d)
  -- the first term is the start of the loop
  have point : (Q.map affine)[0]? = .some (affine R) := by
    rw [List.getElem?_map, isPoint]
    rfl
  have unfolded : lagrangeECC (BitCurve.curve ecmult) (Q.map affine) x d =
      (List.range' 1 d).foldlM (fun sum i => do
        let sigi ← Outcome.index (Q.map affine) i
        let bi ← Outcome.index b i
        let temp ← BitCurve.scalarMult ecmult sigi (intBytes bi)
        BitCurve.add sum temp) (affine (weighted b Q 0)) := by
    rw [lagrangeECC, returned, Outcome.ok_bind, Outcome.index_of_getElem? point, Outcome.ok_bind,
      Outcome.index_of_getElem? isWeight, Outcome.ok_bind]
    simp only [BitCurve.curve, first, Outcome.ok_bind, Int.toNat_natCast]
  rw [unfolded]
  rcases lagrangeECC_rounds terms d le_rfl with ⟨free, -, sum⟩ | ⟨⟨i, low, high, collides⟩, crash⟩
  · exact iff_of_true sum free
  · refine iff_of_false ?_ fun free => free i low high collides
    rw [crash]
    rintro ⟨⟩

end

namespace PointSample

open Reference

theorem weights : evaluateB [1, 2] 1 = .ok [2, (N : Int) - 1] := by decide +kernel

theorem partialSum_one (Q : List Group) : partialSum [2, (N : Int) - 1] Q 1 = 2 • Q.getD 0 0 := by
  rw [partialSum, Finset.sum_range_one]
  exact ofNat_zsmul _ 2

theorem weighted_one (Q : List Group) : weighted [2, (N : Int) - 1] Q 1 = -Q.getD 1 0 := by
  simp only [weighted, List.getD_cons_succ, List.getD_cons_zero]
  rw [sub_smul, one_smul, natCast_zsmul, order, zero_sub]

theorem lagrangeECC_sums_iff_twice :
    lagrangeECC (BitCurve.curve ecmult) ([base, base].map affine) [1, 2] 1 = .ok (affine base) := by
  have finite : ∀ R ∈ [base, base], R ≠ 0 := by simp [base_ne_zero]
  obtain ⟨b, returned, sums⟩ := lagrangeECC_sums_iff ecmult_law (d := 1) (x := [1, 2])
    (Q := [base, base]) rfl (by decide +kernel) (by decide +kernel) rfl finite
  obtain rfl : b = [2, (N : Int) - 1] := by
    have same := returned.symm.trans weights
    exact Outcome.ok.inj same
  have total : partialSum [2, (N : Int) - 1] [base, base] 2 = base := by
    rw [partialSum, Finset.sum_range_succ, ← partialSum, partialSum_one, weighted_one]
    simp only [List.getD_cons_zero, List.getD_cons_succ]
    rw [two_nsmul, add_neg_cancel_right]
  rw [total] at sums
  refine (sums base_ne_zero).mpr fun i low high => ?_
  obtain rfl : i = 1 := le_antisymm high low
  rw [Collides, partialSum_one, weighted_one, neg_neg]
  simp only [List.getD_cons_zero, List.getD_cons_succ]
  rintro (opposite | same)
  · rw [eq_neg_iff_add_eq_zero, ← succ_nsmul, nsmul_eq_zero_iff base_ne_zero] at opposite
    revert opposite
    decide +kernel
  · rw [two_nsmul, add_eq_left] at same
    exact base_ne_zero same

/-- Minus twice the base point. -/
def minusTwo : Int × Int :=
  (double.1, P - double.2)

/-- Twice the first point is minus the second, so the same point is added to itself. -/
theorem lagrangeECC_equal_terms_crash :
    BitCurve.isOnCurve minusTwo.1 minusTwo.2 = true ∧
      evaluateB [1, 2] 1 = .ok [2, (N : Int) - 1] ∧
      sum (multiple (some (Gx, Gy)) 2)
        (multiple (some (minusTwo.1.toNat, minusTwo.2.toNat)) (N - 1)) ≠ none ∧
      lagrangeECC (BitCurve.curve ecmult) [G, some minusTwo] [1, 2] 1 = .panic := by
  decide +kernel

end PointSample
end SchnorrMpc
