import SchnorrMpc.Schnorr.Recovery
import SchnorrMpc.Step.AckSteps

/-!
# Honest key generation and signing

Shares of a group are the values of one polynomial at the seeds of the nodes:
the sum of the polynomials that the nodes drew. Whatever threshold of them a
node collects, and in whatever order it iterates over them, interpolation gives
the value at zero of that polynomial, as a scalar and in the exponent.
-/
namespace SchnorrMpc

open Lib S256 Polynomial

variable {k : Nat} {cfg : Config} {f : PeerInfo → SchnorrMpc.Polynomial} {peers : List PeerInfo}
  {V : Type} {p : (ZMod N)[X]}

/-- A peer table as the leader draws it: distinct nonzero seeds of three bytes. -/
structure PeerTable (peers : List PeerInfo) : Prop where
  distinct : (peers.map PeerInfo.seed).Nodup
  range : ∀ peer ∈ peers, 0 < peer.seed ∧ peer.seed < 2 ^ 24

/-- What iterating over the values of some of the peers can yield: at least a threshold of
them, each under the seed of its sender, in any order. -/
structure Collected {V : Type} (cfg : Config) (peers : List PeerInfo) (value : PeerInfo → V)
    (order : Assoc Nat V) : Prop where
  enough : cfg.mpcSchnrThr ≤ order.length
  senders : ∃ senders : List PeerInfo, senders.Nodup ∧ senders ⊆ peers ∧
    order = senders.map (fun peer => (peer.seed, value peer))

/-- The peers' contributions to the share of node `j`, by seed. -/
def contributions (cfg : Config) (peers : List PeerInfo) (f : PeerInfo → SchnorrMpc.Polynomial)
    (j : PeerInfo) : Go (Assoc Nat Int) :=
  peers.mapM fun i => do
    let value ← evaluatePoly (f i) j.seed cfg.mpcDegree
    pure (i.seed, value)

/-- The share node `j` stores after it received a contribution from every peer. -/
def HoldsShare (cfg : Config) (peers : List PeerInfo) (f : PeerInfo → SchnorrMpc.Polynomial)
    (j : PeerInfo) (share : Int) : Prop :=
  ∃ values order poly, contributions cfg peers f j = .ok values ∧ List.Perm order values ∧
    (RandomPolynomialValue.calculateResult poly order).result = some share

/-- The sum of the nodes' polynomials, modulo `N`. -/
noncomputable def groupPoly (k : Nat) (peers : List PeerInfo)
    (f : PeerInfo → SchnorrMpc.Polynomial) : (ZMod N)[X] :=
  (peers.map fun i => polyOf k (residues (f i))).sum

/-- The secret of the group: the sum of the constant terms. -/
def groupSecret (peers : List PeerInfo) (f : PeerInfo → SchnorrMpc.Polynomial) : ZMod N :=
  (peers.map fun i => residues (f i) 0).sum

theorem degree_groupPoly_lt (k : Nat) (peers : List PeerInfo)
    (f : PeerInfo → SchnorrMpc.Polynomial) : (groupPoly k peers f).degree < k := by
  induction peers with
  | nil => simp [groupPoly]
  | cons peer peers ih =>
    rw [groupPoly, List.map_cons, List.sum_cons]
    exact (degree_add_le _ _).trans_lt (max_lt (degree_polyOf_lt k _) ih)

theorem eval_groupPoly (k : Nat) (peers : List PeerInfo) (f : PeerInfo → SchnorrMpc.Polynomial)
    (x : ZMod N) : (groupPoly k peers f).eval x =
      (peers.map fun i => (polyOf k (residues (f i))).eval x).sum := by
  induction peers with
  | nil => simp [groupPoly]
  | cons peer peers ih =>
    rw [groupPoly, List.map_cons, List.sum_cons, eval_add, List.map_cons, List.sum_cons, ← ih]
    rfl

theorem eval_groupPoly_zero (positive : 0 < k) (peers : List PeerInfo)
    (f : PeerInfo → SchnorrMpc.Polynomial) :
    (groupPoly k peers f).eval 0 = groupSecret peers f := by
  simp only [eval_groupPoly, groupSecret, eval_polyOf_zero k _ positive]

/-! ### Shares lie on the group polynomial -/

theorem contributions_spec (threshold : cfg.mpcSchnrThr = k)
    (lengths : ∀ i ∈ peers, (f i).length = k) (j : PeerInfo) :
    ∃ values : Assoc Nat Int, contributions cfg peers f j = .ok values ∧
      (values.map fun entry => (entry.2 : ZMod N)).sum =
        (groupPoly k peers f).eval (j.seed : ZMod N) := by
  have degree : cfg.mpcDegree = (k : Int) - 1 := by rw [Config.mpcDegree, threshold]
  have total (i : PeerInfo) : ∃ value : Int, i ∈ peers →
      evaluatePoly (f i) j.seed cfg.mpcDegree = .ok value ∧
      (value : ZMod N) = (polyOf k (residues (f i))).eval (j.seed : ZMod N) := by
    by_cases member : i ∈ peers
    · obtain ⟨value, returned, -, -, cast⟩ :=
        evaluatePoly_spec (lengths i member).ge (j.seed : Int)
      refine ⟨value, fun _ => ⟨by rw [degree, returned], ?_⟩⟩
      rw [cast, Int.cast_natCast]
    · exact ⟨0, fun inside => absurd inside member⟩
  choose value spec using total
  refine ⟨peers.map fun i => (i.seed, value i), ?_, ?_⟩
  · rw [contributions]
    refine Outcome.mapM_eq_ok fun i member => ?_
    rw [(spec i member).1]
    rfl
  · rw [eval_groupPoly, List.map_map]
    congr 1
    exact List.map_congr_left fun i member => (spec i member).2

theorem holdsShare_spec (threshold : cfg.mpcSchnrThr = k) (lengths : ∀ i ∈ peers, (f i).length = k)
    {j : PeerInfo} {share : Int} (holds : HoldsShare cfg peers f j share) :
    0 ≤ share ∧ share < N ∧
      (share : ZMod N) = (groupPoly k peers f).eval (j.seed : ZMod N) := by
  obtain ⟨values, order, poly, contributed, perm, result⟩ := holds
  obtain ⟨values', contributed', sum⟩ := contributions_spec threshold lengths j
  rw [contributed] at contributed'
  cases contributed'
  simp only [RandomPolynomialValue.calculateResult, Option.some.injEq] at result
  subst share
  have range := foldl_add_range order (fun entry => entry.2) ⟨le_rfl, N_pos⟩
  refine ⟨range.1, range.2, ?_⟩
  rw [cast_foldl_add, Int.cast_zero, zero_add, ← sum]
  exact (perm.map _).sum_eq

/-! ### Interpolation from what was collected -/

theorem Collected.nodes (threshold : cfg.mpcSchnrThr = k) (table : PeerTable peers)
    {value : PeerInfo → V} {order : Assoc Nat V} (collected : Collected cfg peers value order) :
    Nodes (order.map fun entry => (entry.1 : Int)) k := by
  obtain ⟨enough, senders, nodup, subset, rfl⟩ := collected
  have seeds :
      ((senders.map fun peer => (peer.seed, value peer)).map fun entry => (entry.1 : Int)) =
      (senders.map PeerInfo.seed).map (fun seed : Nat => (seed : Int)) := by
    simp
  rw [seeds]
  refine .of_seeds (by rw [threshold] at enough; simpa using enough) ?_ ?_
  · -- distinct seeds in the table make equal seeds equal peers
    exact nodup.map_on fun p inP q inQ same =>
      List.inj_on_of_nodup_map table.distinct (subset inP) (subset inQ) same
  · intro seed member
    obtain ⟨peer, sender, rfl⟩ := List.mem_map.mp member
    exact (table.range peer (subset sender)).2

theorem Collected.getElem? (threshold : cfg.mpcSchnrThr = k) {value : PeerInfo → V}
    {order : Assoc Nat V} (collected : Collected cfg peers value order) {i : Nat} (below : i < k) :
    ∃ peer ∈ peers, order[i]? = some (peer.seed, value peer) := by
  obtain ⟨enough, senders, -, subset, rfl⟩ := collected
  have inside : i < senders.length := by rw [threshold] at enough; simp at enough; omega
  exact ⟨senders.get ⟨i, inside⟩, subset (List.get_mem _ _), by simp [inside]⟩

theorem lagrange_collected (threshold : cfg.mpcSchnrThr = k) (table : PeerTable peers)
    (degree : p.degree < k) {share : PeerInfo → Int}
    (onPoly : ∀ peer ∈ peers, (share peer : ZMod N) = p.eval (peer.seed : ZMod N))
    {order : Assoc Nat Int} (collected : Collected cfg peers share order) :
    ∃ value, lagrange (order.map fun entry => entry.2) (order.map fun entry => (entry.1 : Int))
        cfg.mpcDegree = .ok value ∧ 0 ≤ value ∧ value < N ∧ (value : ZMod N) = p.eval 0 := by
  have nodes := collected.nodes threshold table
  obtain ⟨value, returned, nonneg, small, sum⟩ :=
    lagrange_spec (f := order.map fun entry => entry.2) nodes (by simpa using nodes.enough)
  refine ⟨value, by rw [Config.mpcDegree, threshold, returned], nonneg, small, ?_⟩
  rw [sum, ← sum_zeroWeight_mul_eval nodes.distinct (by simpa using degree)]
  refine Finset.sum_congr rfl fun i member => ?_
  obtain ⟨peer, known, found⟩ := collected.getElem? threshold (Finset.mem_range.mp member)
  have shareFound : (order.map fun entry => entry.2)[i]? = some (share peer) := by simp [found]
  have seedFound : (order.map fun entry => (entry.1 : Int))[i]? = some (peer.seed : Int) := by
    simp [found]
  rw [residues_of_getElem? shareFound, residues_of_getElem? seedFound, onPoly peer known,
    Int.cast_natCast]

variable {curve : Curve} {E : Type} [AddCommGroup E] [Module (ZMod N) E]

theorem lagrangeECC_collected (law : GroupLaw curve E) (threshold : cfg.mpcSchnrThr = k)
    (positive : 0 < k) (table : PeerTable peers) (degree : p.degree < k)
    {share : PeerInfo → Int × Int}
    (onPoly : ∀ peer ∈ peers, law.coords (p.eval (peer.seed : ZMod N) • law.base) =
      some (share peer))
    {order : Assoc Nat (Int × Int)} (collected : Collected cfg peers share order) :
    lagrangeECC curve
        (order.map fun entry => some ((entry.2.1.natAbs : Int), (entry.2.2.natAbs : Int)))
        (order.map fun entry => (entry.1 : Int)) cfg.mpcDegree =
      .ok (law.coords (p.eval 0 • law.base)) := by
  have nodes := collected.nodes threshold table
  have seeds (i : Nat) (below : i < k) : ∃ peer ∈ peers,
      order[i]? = some (peer.seed, share peer) ∧
      residues (order.map fun entry => (entry.1 : Int)) i = (peer.seed : ZMod N) := by
    obtain ⟨peer, known, found⟩ := collected.getElem? threshold below
    have seedFound : (order.map fun entry => (entry.1 : Int))[i]? = some (peer.seed : Int) := by
      simp [found]
    exact ⟨peer, known, found, by rw [residues_of_getElem? seedFound, Int.cast_natCast]⟩
  rw [Config.mpcDegree, threshold, lagrangeECC_spec law positive nodes
    (fun i => p.eval (residues (order.map fun entry => (entry.1 : Int)) i) • law.base)]
  · rw [sum_zeroWeight_smul_eval nodes.distinct (by simpa using degree)]
  · intro i below
    obtain ⟨peer, known, found, seed⟩ := seeds i below
    have point := onPoly peer known
    obtain ⟨xPos, -, yPos, -⟩ := law.coords_range _ _ _ point
    rw [seed, point]
    simp [found, abs_of_pos xPos, abs_of_pos yPos]

end SchnorrMpc
