import SchnorrMpc.Schnorr.BasicFunc
import SchnorrMpc.Crypto.GroupLaw
import SchnorrMpc.Lib.Interpolation

/-!
# Recovery of a shared secret

The loops of `basicfunc.go`, read in the field of residues modulo `N`: an
evaluation is the value of the polynomial, the `b` coefficients are the weights
of interpolation at zero, and both interpolations are the weighted sums.
-/
namespace SchnorrMpc

open Lib S256

variable {x : List Int} {i k : Nat} {α : Type} {f : Polynomial}

theorem N_pos : (0 : Int) < N := by decide

/-- The residues of a slice of integers; positions outside of it count as zero. -/
def residues (x : List Int) (i : Nat) : ZMod N := ((x.getD i 0 : Int) : ZMod N)

theorem residues_of_getElem? {value : Int} (found : x[i]? = some value) : residues x i = value := by
  simp [residues, List.getD_eq_getElem?_getD, found]

theorem emod_N_range (z : Int) : 0 ≤ z % N ∧ z % N < N :=
  ⟨Int.emod_nonneg _ N_pos.ne', Int.emod_lt_of_pos _ N_pos⟩

/-! ### Loops that reduce in every round -/

theorem cast_foldl_add (items : List α) (g : α → Int) (start : Int) :
    ((items.foldl (fun sum item => (sum + g item) % N) start : Int) : ZMod N) =
      start + (items.map (fun item => (g item : ZMod N))).sum := by
  induction items generalizing start with
  | nil => simp
  | cons item items ih =>
    rw [List.foldl_cons, ih, ZMod.intCast_mod, List.map_cons, List.sum_cons]
    push_cast
    ring

theorem foldl_add_range (items : List α) (g : α → Int) {start : Int}
    (initial : 0 ≤ start ∧ start < N) :
    0 ≤ items.foldl (fun sum item => (sum + g item) % N) start ∧
      items.foldl (fun sum item => (sum + g item) % N) start < N := by
  induction items generalizing start with
  | nil => exact initial
  | cons item items ih => exact ih (emod_N_range _)

private theorem sum_range_map (k : Nat) (g : Nat → ZMod N) :
    ((List.range k).map g).sum = ∑ i ∈ Finset.range k, g i :=
  rfl

/-! ### Evaluation -/

theorem evaluatePoly_eq (enough : k ≤ f.length) (x : Int) :
    evaluatePoly f x ((k : Int) - 1) = .ok ((List.range k).foldl
      (fun sum i => (sum + f.getD i 0 * (x ^ i % N % N) % N) % N) 0) := by
  have rounds : ((k : Int) - 1 + 1).toNat = k := by omega
  rw [evaluatePoly, rounds]
  apply Outcome.foldlM_eq_ok
  intro sum i member
  have inside : i < f.length := (List.mem_range.mp member).trans_le enough
  rw [Outcome.index_of_getElem? (List.getElem?_eq_getElem inside)]
  simp [List.getD_eq_getElem?_getD, List.getElem?_eq_getElem inside]

theorem evaluatePoly_spec (enough : k ≤ f.length) (x : Int) :
    ∃ value, evaluatePoly f x ((k : Int) - 1) = .ok value ∧ 0 ≤ value ∧ value < N ∧
      (value : ZMod N) = (polyOf k (residues f)).eval (x : ZMod N) := by
  refine ⟨_, evaluatePoly_eq enough x, ?_⟩
  have range := foldl_add_range (List.range k) (fun i => f.getD i 0 * (x ^ i % N % N) % N)
    ⟨le_rfl, N_pos⟩
  refine ⟨range.1, range.2, ?_⟩
  rw [cast_foldl_add, sum_range_map, eval_polyOf, Int.cast_zero, zero_add]
  refine Finset.sum_congr rfl fun i _ => ?_
  simp only [residues]
  push_cast
  rfl

/-! ### The `b` coefficients -/

theorem modInverse_of_ne_zero {d : Int} (nonzero : (d : ZMod N) ≠ 0) :
    ∃ inverse, modInverse d N = some inverse ∧ (inverse : ZMod N) = (d : ZMod N)⁻¹ := by
  have indivisible : ¬(N : Int) ∣ d := fun divides =>
    nonzero ((ZMod.intCast_zmod_eq_zero_iff_dvd d N).mpr divides)
  have coprime : Int.gcd d N = 1 := by
    have natural : ¬N ∣ d.natAbs := fun divides => indivisible (Int.natCast_dvd.mpr divides)
    rw [Int.gcd_comm]
    exact (Nat.Prime.coprime_iff_not_dvd N_prime).mpr natural
  have found : modInverse d N = some (Int.gcdA d N % N) := if_pos coprime
  refine ⟨_, found, ?_⟩
  have product := congrArg (Int.cast : Int → ZMod N) (modInverse_mul found)
  rw [ZMod.intCast_mod, ZMod.intCast_mod, Int.cast_mul, Int.cast_one] at product
  exact eq_inv_of_mul_eq_one_right product

/-- The nodes a call of `evaluateB` reads are there and have distinct residues. -/
structure Nodes (x : List Int) (k : Nat) : Prop where
  enough : k ≤ x.length
  distinct : Set.InjOn (residues x) (Finset.range k)

theorem seed_cast_inj {a b : Nat} (aSmall : a < 2 ^ 24) (bSmall : b < 2 ^ 24)
    (same : (a : ZMod N) = (b : ZMod N)) : a = b := by
  have large : 2 ^ 24 < N := by decide
  rw [ZMod.natCast_eq_natCast_iff', Nat.mod_eq_of_lt (by omega), Nat.mod_eq_of_lt (by omega)]
    at same
  exact same

theorem Nodes.of_seeds {seeds : List Nat} (enough : k ≤ seeds.length) (distinct : seeds.Nodup)
    (small : ∀ seed ∈ seeds, seed < 2 ^ 24) :
    Nodes (seeds.map (fun seed : Nat => (seed : Int))) k := by
  refine ⟨by simpa using enough, ?_⟩
  have residue (i : Nat) (below : i < seeds.length) :
      residues (seeds.map (fun seed : Nat => (seed : Int))) i =
        (seeds.get ⟨i, below⟩ : ZMod N) := by
    have found : (seeds.map (fun seed : Nat => (seed : Int)))[i]? =
        some (seeds.get ⟨i, below⟩ : Int) := by
      rw [List.getElem?_map, List.getElem?_eq_getElem below]
      rfl
    rw [residues_of_getElem? found, Int.cast_natCast]
  intro i iBelow j jBelow same
  have iLt : i < seeds.length := (Finset.mem_range.mp iBelow).trans_le enough
  have jLt : j < seeds.length := (Finset.mem_range.mp jBelow).trans_le enough
  rw [residue i iLt, residue j jLt] at same
  have equal := seed_cast_inj (small _ (List.get_mem _ _)) (small _ (List.get_mem _ _)) same
  simpa using (List.nodup_iff_injective_get.mp distinct) equal

private theorem evaluateb_round (nodes : Nodes x k) (below : i < k) (sum : Int) {j : Nat}
    (member : j < k) (other : j ≠ i) :
    ∃ temp2 : Int, (temp2 : ZMod N) = residues x j * (residues x j - residues x i)⁻¹ ∧
      (do let xj ← Outcome.index x j
          let xi ← Outcome.index x i
          let temp1 := xj - xi
          let temp1 := (modInverse temp1 N).getD temp1
          let temp2 := xj * temp1
          pure (sum * temp2 % N) : Go Int) = .ok (sum * temp2 % N) := by
  have xjFound := List.getElem?_eq_getElem (member.trans_le nodes.enough)
  have xiFound := List.getElem?_eq_getElem (below.trans_le nodes.enough)
  have cast : ((x.get ⟨j, member.trans_le nodes.enough⟩ - x.get ⟨i, below.trans_le nodes.enough⟩
      : Int) : ZMod N) = residues x j - residues x i := by
    rw [residues_of_getElem? xjFound, residues_of_getElem? xiFound]
    push_cast
    rfl
  have nonzero : residues x j - residues x i ≠ 0 := by
    rw [sub_ne_zero]
    exact fun same => other (nodes.distinct (by simpa using member) (by simpa using below) same)
  obtain ⟨inverse, found, value⟩ := modInverse_of_ne_zero (by rw [cast]; exact nonzero)
  refine ⟨x.get ⟨j, member.trans_le nodes.enough⟩ * inverse, ?_, ?_⟩
  · rw [Int.cast_mul, value, cast, residues_of_getElem? xjFound]
    rfl
  · rw [Outcome.index_of_getElem? xjFound, Outcome.index_of_getElem? xiFound]
    simp only [Outcome.ok_bind, Outcome.pure_eq]
    simp only [List.get_eq_getElem] at found
    rw [found]
    rfl

/-- The loop of `evaluateb`, cut after `n` rounds. -/
private theorem evaluateb_prefix (nodes : Nodes x k) (below : i < k) (n : Nat) (bound : n ≤ k) :
    ∃ value, ((List.range n).foldlM (fun sum j =>
        if j ≠ i then do
          let xj ← Outcome.index x j
          let xi ← Outcome.index x i
          let temp1 := xj - xi
          let temp1 := (modInverse temp1 N).getD temp1
          let temp2 := xj * temp1
          pure (sum * temp2 % N)
        else pure sum) 1 : Go Int) = .ok value ∧ 0 ≤ value ∧ value < N ∧
      (value : ZMod N) = ∏ j ∈ (Finset.range n).erase i,
        residues x j * (residues x j - residues x i)⁻¹ := by
  induction n with
  | zero => exact ⟨1, rfl, by decide, by decide, by simp⟩
  | succ n ih =>
    obtain ⟨sum, returned, nonneg, small, value⟩ := ih (Nat.le_of_succ_le bound)
    rw [List.range_succ, List.foldlM_append, returned, Outcome.ok_bind, List.foldlM_cons]
    by_cases same : n = i
    · -- the round of the node itself is skipped
      subst same
      refine ⟨sum, by simp, nonneg, small, ?_⟩
      rw [value, Finset.range_add_one, Finset.erase_insert_eq_erase]
    · obtain ⟨temp2, cast, round⟩ := evaluateb_round nodes below sum bound same
      have range := emod_N_range (sum * temp2)
      refine ⟨sum * temp2 % N, ?_, range.1, range.2, ?_⟩
      · rw [if_pos same, round]
        rfl
      · rw [ZMod.intCast_mod, Int.cast_mul, value, cast, Finset.range_add_one,
          Finset.erase_insert_of_ne same, Finset.prod_insert (by simp), mul_comm]

theorem evaluateb_spec (nodes : Nodes x k) (below : i < k) :
    ∃ value, evaluateb x i ((k : Int) - 1) = .ok value ∧ 0 ≤ value ∧ value < N ∧
      (value : ZMod N) = zeroWeight (Finset.range k) (residues x) i := by
  have rounds : ((k : Int) - 1 + 1).toNat = k := by omega
  rw [evaluateb, rounds]
  exact evaluateb_prefix nodes below k le_rfl

theorem evaluateB_spec (nodes : Nodes x k) :
    ∃ b : List Int, evaluateB x ((k : Int) - 1) = .ok b ∧ ∀ i < k, ∃ value, b[i]? = some value ∧
      0 ≤ value ∧ value < N ∧
      (value : ZMod N) = zeroWeight (Finset.range k) (residues x) i := by
  have total (i : Nat) : ∃ value, i < k → evaluateb x i ((k : Int) - 1) = .ok value ∧ 0 ≤ value ∧
      value < N ∧ (value : ZMod N) = zeroWeight (Finset.range k) (residues x) i := by
    by_cases below : i < k
    · obtain ⟨value, spec⟩ := evaluateb_spec nodes below
      exact ⟨value, fun _ => spec⟩
    · exact ⟨0, fun inside => absurd inside below⟩
  choose weight spec using total
  have rounds : ((k : Int) - 1 + 1).toNat = k := by omega
  refine ⟨(List.range k).map weight, ?_, fun i below => ⟨weight i, ?_, (spec i below).2⟩⟩
  · rw [evaluateB, if_neg (by omega), rounds]
    exact Outcome.mapM_eq_ok fun i member => (spec i (List.mem_range.mp member)).1
  · simp [below]

/-! ### Interpolation -/

/-- Interpolation of scalar shares. -/
theorem lagrange_spec {f : List Int} (nodes : Nodes x k) (shares : k ≤ f.length) :
    ∃ value, lagrange f x ((k : Int) - 1) = .ok value ∧ 0 ≤ value ∧ value < N ∧
      (value : ZMod N) = ∑ i ∈ Finset.range k,
        zeroWeight (Finset.range k) (residues x) i * residues f i := by
  obtain ⟨b, returned, weights⟩ := evaluateB_spec nodes
  have rounds : ((k : Int) - 1 + 1).toNat = k := by omega
  have loop : ((List.range k).foldlM (fun s i => do
      let fi ← Outcome.index f i
      let bi ← Outcome.index b i
      let temp1 := fi * bi
      pure ((s + temp1) % N)) 0 : Go Int) =
      .ok ((List.range k).foldl (fun s i => (s + f.getD i 0 * b.getD i 0) % N) 0) := by
    apply Outcome.foldlM_eq_ok
    intro s i member
    have below := List.mem_range.mp member
    have fFound := List.getElem?_eq_getElem (below.trans_le shares)
    obtain ⟨bi, bFound, -⟩ := weights i below
    rw [Outcome.index_of_getElem? fFound, Outcome.index_of_getElem? bFound]
    simp [List.getD_eq_getElem?_getD, fFound, bFound]
  rw [lagrange, returned, Outcome.ok_bind, rounds, loop]
  have range := foldl_add_range (List.range k) (fun i => f.getD i 0 * b.getD i 0) ⟨le_rfl, N_pos⟩
  refine ⟨_, rfl, range.1, range.2, ?_⟩
  rw [cast_foldl_add, sum_range_map, Int.cast_zero, zero_add]
  refine Finset.sum_congr rfl fun i member => ?_
  obtain ⟨bi, bFound, -, -, weight⟩ := weights i (Finset.mem_range.mp member)
  rw [← weight, Int.cast_mul, mul_comm, residues, List.getD_eq_getElem?_getD (l := b), bFound]
  rfl

variable {curve : Curve} {E : Type} [AddCommGroup E] [Module (ZMod N) E]

/-- Where points can be multiplied by the weights, only the additions are left of the loop. -/
private theorem lagrangeECC_eq_foldlM {coords : E → Point} {sig : List Point} (positive : 0 < k)
    (nodes : Nodes x k) {Q : Nat → E} (points : ∀ i < k, sig[i]? = some (coords (Q i)))
    (scaled : ∀ i < k, ∀ b : Int, 0 ≤ b → b < N →
      curve.scalarMult (coords (Q i)) (intBytes b) = .ok (coords ((b : ZMod N) • Q i))) :
    lagrangeECC curve sig x ((k : Int) - 1) = (List.range' 1 (k - 1)).foldlM
      (fun sum i => curve.add sum (coords (zeroWeight (Finset.range k) (residues x) i • Q i)))
      (coords (zeroWeight (Finset.range k) (residues x) 0 • Q 0)) := by
  obtain ⟨b, returned, weights⟩ := evaluateB_spec nodes
  have term (i : Nat) (below : i < k) : ∃ bi, b[i]? = some bi ∧
      curve.scalarMult (coords (Q i)) (intBytes bi) =
        .ok (coords (zeroWeight (Finset.range k) (residues x) i • Q i)) := by
    obtain ⟨bi, found, nonneg, small, weight⟩ := weights i below
    exact ⟨bi, found, by rw [scaled i below bi nonneg small, weight]⟩
  obtain ⟨b0, b0Found, first⟩ := term 0 positive
  have rounds : ((k : Int) - 1).toNat = k - 1 := by omega
  rw [lagrangeECC, returned, Outcome.ok_bind, Outcome.index_of_getElem? (points 0 positive),
    Outcome.ok_bind, Outcome.index_of_getElem? b0Found, Outcome.ok_bind, first, Outcome.ok_bind,
    rounds]
  refine Outcome.foldlM_congr (fun sum i member => ?_) _
  have below : i < k := by
    have := List.mem_range'_1.mp member
    omega
  obtain ⟨bi, biFound, next⟩ := term i below
  rw [Outcome.index_of_getElem? (points i below), Outcome.ok_bind,
    Outcome.index_of_getElem? biFound, Outcome.ok_bind, next, Outcome.ok_bind]

theorem lagrangeECC_spec (law : GroupLaw curve E) {sig : List Point} (positive : 0 < k)
    (nodes : Nodes x k) (Q : Nat → E) (points : ∀ i < k, sig[i]? = some (law.coords (Q i))) :
    lagrangeECC curve sig x ((k : Int) - 1) = .ok (law.coords (∑ i ∈ Finset.range k,
      zeroWeight (Finset.range k) (residues x) i • Q i)) := by
  have wide : (N : Int) < 256 ^ 32 := by decide
  rw [lagrangeECC_eq_foldlM positive nodes points
    fun i _ b nonneg small => law.scalarMult_int _ nonneg (small.trans wide)]
  -- The accumulator after `n` further rounds is the sum of the first `n + 1` terms.
  have loop (n : Nat) : ((List.range' 1 n).foldlM (fun sum i => curve.add sum
      (law.coords (zeroWeight (Finset.range k) (residues x) i • Q i)))
      (law.coords (zeroWeight (Finset.range k) (residues x) 0 • Q 0)) : Go Point) =
      .ok (law.coords (∑ i ∈ Finset.range (n + 1),
        zeroWeight (Finset.range k) (residues x) i • Q i)) := by
    induction n with
    | zero => simp
    | succ n ih =>
      rw [List.range'_concat, List.foldlM_append, ih, Outcome.ok_bind, List.foldlM_cons,
        Nat.one_mul, Nat.add_comm 1 n, law.add, Finset.sum_range_succ _ (n + 1)]
      rfl
  rw [loop (k - 1), Nat.sub_add_cancel positive]

/-- Where an addition may fail, the sum is what is returned if anything is. -/
theorem lagrangeECC_sum (law : CurveLaw curve E) {sig : List Point} {result : Point}
    (positive : 0 < k) (nodes : Nodes x k) (Q : Nat → E)
    (points : ∀ i < k, law.coords (Q i) ≠ none ∧ sig[i]? = some (law.coords (Q i)))
    (returned : lagrangeECC curve sig x ((k : Int) - 1) = .ok result) :
    result = law.coords (∑ i ∈ Finset.range k,
      zeroWeight (Finset.range k) (residues x) i • Q i) := by
  rw [lagrangeECC_eq_foldlM positive nodes (fun i below => (points i below).2)
    fun i below b nonneg small => law.scalarMult_int (points i below).1 nonneg small] at returned
  have loop (n : Nat) (sum : Point)
      (summed : ((List.range' 1 n).foldlM (fun sum i => curve.add sum
        (law.coords (zeroWeight (Finset.range k) (residues x) i • Q i)))
        (law.coords (zeroWeight (Finset.range k) (residues x) 0 • Q 0)) : Go Point) = .ok sum) :
      sum = law.coords (∑ i ∈ Finset.range (n + 1),
        zeroWeight (Finset.range k) (residues x) i • Q i) := by
    induction n generalizing sum with
    | zero =>
      cases summed
      simp
    | succ n ih =>
      rw [List.range'_concat, List.foldlM_append, Outcome.bind_eq_ok_iff] at summed
      obtain ⟨before, first, last⟩ := summed
      obtain rfl := ih before first
      simp only [List.foldlM_cons, List.foldlM_nil, Nat.one_mul, Nat.add_comm 1 n,
        Outcome.bind_eq_ok_iff] at last
      obtain ⟨_, added, same⟩ := last
      cases same
      rw [law.add _ _ _ added, Finset.sum_range_succ _ (n + 1)]
  rw [loop (k - 1) result returned, Nat.sub_add_cancel positive]

end SchnorrMpc
