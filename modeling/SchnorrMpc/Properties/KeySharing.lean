import SchnorrMpc.Crypto.PointTable
import SchnorrMpc.Properties.KeyAgreement

/-!
# What an agreed key is worth

Nothing ties the points that a node interpolates from to the private shares, so
agreement on a key does not make it the key of the shares. It is their key if
some honest node has interpolated from honest points only.
-/
namespace SchnorrMpc

open Lib S256 Polynomial

variable {p r q : NodeID} {run first second : ContextRun} {order : Assoc Nat (Int × Int)}
  {gpk : Int × Int} {share s t : Int} {S : List NodeID} {k : Nat} {seeds shares : List Int}

namespace Group

/-- The node has written a key file for this key and this share, after it has interpolated from
the points in this order. -/
def Persists (kenv : KeyEnv) (cfg : Config) (members : List NodeID) (g g' : Group) (p : NodeID)
    (order : Assoc Nat (Int × Int)) (gpk : Int × Int) (share : Int) : Prop :=
  ∃ start run choice u v pointer keyStore encoded, g p = some start ∧ g' p = some run ∧
    ContextRun.Finishes kenv cfg (g'.Arrives members p) start run 3 choice u v ∧
    KeyFinished kenv cfg u v choice pointer order gpk share keyStore encoded

/-- All honest nodes work with this table; before the seeds are drawn they are zero. -/
structure OneTable (table : List PeerInfo) (g g' : Group) : Prop where
  fresh : ∀ p run, g p = some run →
    (∀ peer ∈ run.ctx.peers, peer.seed = 0) ∨ run.ctx.peers = table
  final : ∀ p run, g' p = some run → run.ctx.peers = table

variable {kenv : KeyEnv} {cfg : Config} {members ids : List NodeID} {mpcID : Nat}
  {table : List PeerInfo} {g g' : Group} (generates : g.Generates cfg members ids mpcID)
  (reaches : Reaches kenv cfg members g g') (oneTable : OneTable table g g')
  (returned : ∀ p run, g' p = some run → run.pc = .returned none)

include generates reaches returned

omit generates reaches in
theorem past_of_returned (here : g' p = some run) (i : Nat) : run.pc.stage.Past i := by
  rw [returned p run here]
  trivial

theorem Generates.persists (here : g' p = some run) :
    ∃ order gpk share, Persists kenv cfg members g g' p order gpk share := by
  obtain ⟨srv, leader, ctx, -, -, start, -, -, honest, path⟩ := generates.node reaches here
  obtain ⟨choice, u, v, finishes⟩ :=
    start.finished path (by decide : 3 < 5) (past_of_returned returned here 3)
  obtain ⟨pointer, order, gpk, share, keyStore, encoded, key⟩ := start.finishes_key finishes
  exact ⟨order, gpk, share, _, run, choice, u, v, pointer, keyStore, encoded, honest, here,
    finishes, key⟩

omit returned in
theorem Generates.stored_persisted (here : g' p = some run)
    (persists : Persists kenv cfg members g g' p order gpk share) :
    run.ctx.mpcResult.result .publicKeyResult = some [gpk.1, gpk.2] ∧
      ∃ rest, run.ctx.mpcResult.result .mpcPrivateShare = some (share :: rest) := by
  obtain ⟨_, _, choice, u, v, pointer, keyStore, encoded, atStart, atEnd, finishes, key⟩ := persists
  obtain ⟨srv, leader, ctx, -, -, start, -, -, honest, -⟩ := generates.node reaches here
  cases atStart.symm.trans honest
  cases atEnd.symm.trans here
  exact ⟨(start.stored_key finishes key).1, start.stored_share finishes key⟩

/-- What an honest node shows in the step of the group key is the multiple of the base point by
the share in its key file. -/
theorem Generates.shows (here : g' p = some run)
    (persists : Persists kenv cfg members g g' p order gpk share) :
    0 ≤ share ∧ share < N ∧ ∃ x y : Int,
      kenv.curve.scalarBaseMult (intBytes share) = .ok (some (x, y)) ∧
      ∀ receiver msg, run.Sends receiver msg → msg.stepID = 3 → msg.data = [x, y] := by
  obtain ⟨srv, leader, ctx, -, -, start, -, -, honest, path⟩ := generates.node reaches here
  obtain ⟨-, rest, isStored⟩ := generates.stored_persisted reaches here persists
  obtain ⟨share', x, y, nonneg, small, isPoint, isPrivate, isPublic⟩ :=
    start.shared path (past_of_returned returned here 2)
  obtain rfl : share = share' := by
    rw [isPrivate] at isStored
    simp_all
  refine ⟨nonneg, small, x, y, isPoint, fun receiver msg sent isStep => ?_⟩
  obtain ⟨value, x', y', isValue, isX, isY, content⟩ := start.shows path sent isStep
  cases isPublic.symm.trans isValue
  cases isX
  cases isY
  exact content

theorem Generates.seeded (oneTable : OneTable table g g') (here : g' p = some run) :
    Seeded table ∧ p ∈ table.map PeerInfo.peerID := by
  obtain ⟨srv, leader, ctx, member, -, start, told, isPeers, -, path⟩ :=
    generates.node reaches here
  have final := oneTable.final p run here
  obtain ⟨views, -⟩ := start.path path
  constructor
  · have seeded := View.Reaches.seeded views start.kinds rfl told
      (past_of_returned returned here 0)
    rw [← final]
    exact seeded
  · have same := (View.Reaches.peerIDs views).trans isPeers
    rw [← final, show run.ctx.peers.map PeerInfo.peerID = ids from same]
    exact generates.covers p member

omit returned in
theorem Generates.shown (oneTable : OneTable table g g') (here : g' r = some run)
    (persists : Persists kenv cfg members g g' r order gpk share) :
    Shown (fun sender msg => ∀ other, g' sender = some other → other.Sends r msg) table order := by
  obtain ⟨_, _, choice, u, v, pointer, keyStore, encoded, atStart, atEnd, finishes, key⟩ := persists
  obtain ⟨srv, leader, ctx, member, isSelf, start, -, -, honest, path⟩ :=
    generates.node reaches here
  cases atStart.symm.trans honest
  cases atEnd.symm.trans here
  have self : run.srv.self = r := (View.Reaches.self_eq (start.path path).1).trans isSelf
  refine (start.shown finishes key (oneTable.fresh r _ honest) (oneTable.final r run here)).mono ?_
  exact fun sender msg heard => (mem_of_heard here self member heard).2

theorem Generates.point_of_honest (oneTable : OneTable table g g') (there : g' q = some run)
    (shown : Shown (fun sender msg => ∀ other, g' sender = some other →
      other.Sends r msg) table order)
    {point : Int × Int} (filed : (getPeerSeed table q, point) ∈ order) :
    ∃ msg, run.Sends r msg ∧ msg.stepID = 3 ∧ msg.data = [point.1, point.2] := by
  obtain ⟨sender, msg, sent, isStep, isSeed, nonzero, isPoint⟩ := shown.origin _ filed
  obtain ⟨seeded, listed⟩ := generates.seeded reaches returned oneTable there
  obtain rfl : sender = q := seeded.peerID_inj (.inl (isSeed ▸ nonzero)) (.inr listed) isSeed
  exact ⟨msg, sent run there, isStep, isPoint⟩

theorem Generates.nodes (oneTable : OneTable table g g') (distinct : S.Nodup)
    (honest : ∀ q ∈ S, (g' q).isSome) :
    Nodes (S.map fun q => (getPeerSeed table q : Int)) S.length := by
  have member (q : NodeID) (inS : q ∈ S) : Seeded table ∧ q ∈ table.map PeerInfo.peerID := by
    obtain ⟨run, there⟩ := Option.isSome_iff_exists.mp (honest q inS)
    exact generates.seeded reaches returned oneTable there
  have seeds : (S.map fun q => (getPeerSeed table q : Int)) =
      (S.map (getPeerSeed table)).map (fun seed : Nat => (seed : Int)) := by
    rw [List.map_map]
    rfl
  rw [seeds]
  refine .of_seeds (by simp) ?_ ?_
  · refine distinct.map_on fun p inP q inQ same => ?_
    exact (member p inP).1.peerID_inj (.inr (member p inP).2) (.inr (member q inQ).2) same
  · intro seed inSeeds
    obtain ⟨q, inS, rfl⟩ := List.mem_map.mp inSeeds
    exact (member q inS).1.small _ (mem_of_getPeerSeed (.inr (member q inS).2))

end Group

def keyPoint (gpk : Int × Int) : Point := some ((gpk.1.natAbs : Int), (gpk.2.natAbs : Int))

section Recovery

variable {E : Type} [AddCommGroup E] [Module (ZMod N) E] {curve : Curve}

/-- Points and shares that belong together give a point and a scalar that do. -/
theorem lagrangeECC_shares (law : CurveLaw curve E) (positive : 0 < k) (nodes : Nodes seeds k)
    (enough : k ≤ shares.length) (inside : k ≤ order.length)
    (belongs : ∀ i < k, ∀ entry, order[i]? = some entry → ∃ share : Int,
      seeds[i]? = some (entry.1 : Int) ∧ shares[i]? = some share ∧
      law.coords ((share : ZMod N) • law.base) = some entry.2)
    {result : Point} (interpolated : lagrangeECC curve
      (order.map fun entry => some ((entry.2.1.natAbs : Int), (entry.2.2.natAbs : Int)))
      (order.map fun entry => (entry.1 : Int)) ((k : Int) - 1) = .ok result) :
    ∃ s : Int, lagrange shares seeds ((k : Int) - 1) = .ok s ∧ 0 ≤ s ∧ s < N ∧
      result = law.coords ((s : ZMod N) • law.base) := by
  obtain ⟨s, returned, nonneg, small, sum⟩ := lagrange_spec nodes enough
  refine ⟨s, returned, nonneg, small, ?_⟩
  have entryAt (i : Nat) (below : i < k) : ∃ entry, order[i]? = some entry :=
    ⟨_, List.getElem?_eq_getElem (below.trans_le inside)⟩
  -- The two lists of seeds agree as far as they are read.
  have same : ∀ i ∈ Finset.range k,
      residues (order.map fun entry => (entry.1 : Int)) i = residues seeds i := by
    intro i member
    obtain ⟨entry, found⟩ := entryAt i (Finset.mem_range.mp member)
    obtain ⟨-, isSeed, -⟩ := belongs i (Finset.mem_range.mp member) entry found
    have filed : (order.map fun entry => (entry.1 : Int))[i]? = some (entry.1 : Int) := by
      simp [found]
    rw [residues_of_getElem? filed, residues_of_getElem? isSeed]
  have nodes' : Nodes (order.map fun entry => (entry.1 : Int)) k := by
    refine ⟨by simpa using inside, fun i iBelow j jBelow equal => ?_⟩
    rw [same i iBelow, same j jBelow] at equal
    exact nodes.distinct iBelow jBelow equal
  rw [lagrangeECC_sum law positive nodes' (fun i => residues shares i • law.base) ?_ interpolated]
  · rw [sum, Finset.sum_smul]
    congr 1
    refine Finset.sum_congr rfl fun i member => ?_
    rw [zeroWeight_congr same member, smul_smul]
  · intro i below
    obtain ⟨entry, found⟩ := entryAt i below
    obtain ⟨share, -, isShare, isPoint⟩ := belongs i below entry found
    obtain ⟨xNonneg, yNonneg⟩ := law.coords_nonneg _ _ _ isPoint
    rw [residues_of_getElem? isShare, isPoint]
    simp [found, abs_of_nonneg xNonneg, abs_of_nonneg yNonneg]

theorem lagrange_of_polynomial (nodes : Nodes seeds k) (enough : k ≤ shares.length)
    {poly : (ZMod N)[X]} (degree : poly.degree < k)
    (values : ∀ i < k, residues shares i = poly.eval (residues seeds i)) :
    ∃ s : Int, lagrange shares seeds ((k : Int) - 1) = .ok s ∧ 0 ≤ s ∧ s < N ∧
      (s : ZMod N) = poly.eval 0 := by
  obtain ⟨s, returned, nonneg, small, sum⟩ := lagrange_spec nodes enough
  refine ⟨s, returned, nonneg, small, ?_⟩
  rw [sum, ← sum_zeroWeight_mul_eval nodes.distinct (by simpa using degree)]
  refine Finset.sum_congr rfl fun i member => ?_
  rw [values i (Finset.mem_range.mp member)]

theorem eq_of_residue_eq (sRange : 0 ≤ s ∧ s < N) (tRange : 0 ≤ t ∧ t < N)
    (same : (s : ZMod N) = (t : ZMod N)) : s = t := by
  have equal := (ZMod.intCast_eq_intCast_iff' s t N).mp same
  rwa [Int.emod_eq_of_lt sRange.1 sRange.2, Int.emod_eq_of_lt tRange.1 tRange.2] at equal

theorem scalarBaseMult_inj (law : GroupLaw curve E) (sRange : 0 ≤ s ∧ s < N)
    (tRange : 0 ≤ t ∧ t < N)
    (same : curve.scalarBaseMult (intBytes s) = curve.scalarBaseMult (intBytes t)) : s = t := by
  have wide : (N : Int) < 256 ^ 32 := by decide
  rw [law.scalarBaseMult_int sRange.1 (sRange.2.trans wide),
    law.scalarBaseMult_int tRange.1 (tRange.2.trans wide)] at same
  have equal := law.coords_injective (Outcome.ok.inj same)
  refine eq_of_residue_eq sRange tRange (sub_eq_zero.mp ((law.smul_base_eq_zero_iff _).mp ?_))
  rw [sub_smul, equal, sub_self]

end Recovery

namespace Group

variable {kenv : KeyEnv} {cfg : Config} {members ids : List NodeID} {mpcID : Nat}
  {table : List PeerInfo} {g g' : Group} (generates : g.Generates cfg members ids mpcID)
  (reaches : Reaches kenv cfg members g g') (oneTable : OneTable table g g')
  (returned : ∀ p run, g' p = some run → run.pc = .returned none)
  {share : NodeID → Int} {gpk : NodeID → Int × Int} {order : NodeID → Assoc Nat (Int × Int)}
  (persists : ∀ p run, g' p = some run →
    Persists kenv cfg members g g' p (order p) (gpk p) (share p))
  {E : Type} [AddCommGroup E] [Module (ZMod N) E] (law : GroupLaw kenv.curve E)

include generates reaches oneTable returned persists law

/-- The key of a node that has interpolated from the points of honest nodes is the key of the
shares of these nodes. -/
theorem Generates.key_of_shares (here : g' r = some run) (honest : ∀ q ∈ S, (g' q).isSome)
    (interpolated : ((order r).take cfg.mpcSchnrThr.toNat).map Prod.fst =
      S.map (getPeerSeed table)) :
    S.Nodup ∧ cfg.mpcSchnrThr = S.length ∧ ∃ s : Int,
      lagrange (S.map share) (S.map fun q => (getPeerSeed table q : Int)) cfg.mpcDegree = .ok s ∧
      (0 ≤ s ∧ s < N) ∧ kenv.curve.scalarBaseMult (intBytes s) = .ok (keyPoint (gpk r)) := by
  have shown := generates.shown reaches oneTable here (persists r run here)
  obtain ⟨_, _, choice, u, v, pointer, keyStore, encoded, -, -, -, key⟩ := persists r run here
  obtain ⟨enough, calculated, -⟩ := MpcPointGenerator.calculateResult_eq_ok key.calculated
  have positive := lagrangeECC_degree calculated
  simp only [Config.mpcDegree] at positive calculated ⊢
  have length := congrArg List.length interpolated
  simp only [List.length_map, List.length_take] at length
  have threshold : cfg.mpcSchnrThr = S.length := by omega
  have count : cfg.mpcSchnrThr.toNat = S.length := by omega
  -- one seed a node, and the seeds of the interpolation are distinct
  have distinct : S.Nodup := by
    refine List.Nodup.of_map (getPeerSeed table) ?_
    rw [← interpolated]
    exact shown.distinct.sublist ((List.take_sublist _ _).map _)
  refine ⟨distinct, threshold, ?_⟩
  rw [threshold] at calculated ⊢
  have belongs (i : Nat) (below : i < S.length) (entry : Nat × Int × Int)
      (found : (order r)[i]? = some entry) : ∃ value : Int,
      (S.map fun q => (getPeerSeed table q : Int))[i]? = some (entry.1 : Int) ∧
      (S.map share)[i]? = some value ∧
      law.coords ((value : ZMod N) • law.base) = some entry.2 := by
    have inS : S[i]? = some (S.get ⟨i, below⟩) := List.getElem?_eq_getElem below
    have isSeed : entry.1 = getPeerSeed table (S.get ⟨i, below⟩) := by
      have read := congrArg (fun seeds => seeds[i]?) interpolated
      simpa [List.getElem?_take, count, below, found] using read
    -- the node whose point was used is honest, so it has shown the multiple of its share
    obtain ⟨other, there⟩ := Option.isSome_iff_exists.mp (honest _ (List.get_mem S ⟨i, below⟩))
    have filed : (getPeerSeed table (S.get ⟨i, below⟩), entry.2) ∈ order r := by
      rw [← isSeed]
      exact List.mem_of_getElem? found
    obtain ⟨msg, sent, isStep, content⟩ :=
      generates.point_of_honest reaches returned oneTable there shown filed
    obtain ⟨nonneg, small, x, y, isPoint, shows⟩ :=
      generates.shows reaches returned there (persists _ other there)
    obtain ⟨rfl, rfl⟩ : entry.2.1 = x ∧ entry.2.2 = y := by
      simpa [shows r msg sent isStep, eq_comm] using content
    have wide : (N : Int) < 256 ^ 32 := by decide
    rw [law.scalarBaseMult_int nonneg (small.trans wide)] at isPoint
    refine ⟨share (S.get ⟨i, below⟩), ?_, ?_, Outcome.ok.inj isPoint⟩
    · rw [List.getElem?_map, inS, isSeed]
      rfl
    · rw [List.getElem?_map, inS]
      rfl
  -- the interpolation on the curve is that of the shares
  obtain ⟨s, recovered, nonneg, small, isKey⟩ := lagrangeECC_shares law.curveLaw (by omega)
    (generates.nodes reaches returned oneTable distinct honest) (by simp) (by omega) belongs
    calculated
  have wide : (N : Int) < 256 ^ 32 := by decide
  refine ⟨s, recovered, ⟨nonneg, small⟩, ?_⟩
  rw [law.scalarBaseMult_int nonneg (small.trans wide)]
  change some (gpk r) = law.coords ((s : ZMod N) • law.base) at isKey
  obtain ⟨xPos, -, yPos, -⟩ := law.coords_range _ _ _ isKey.symm
  rw [← isKey, keyPoint, Int.natAbs_of_nonneg xPos.le, Int.natAbs_of_nonneg yPos.le]

omit oneTable law [AddCommGroup E] [Module (ZMod N) E] in
theorem Generates.same_keyPoint (ranged : kenv.curve.KeepsRange) {runP runQ : ContextRun}
    (hereP : g' p = some runP) (hereQ : g' q = some runQ) : gpk p = gpk q := by
  have stored {p : NodeID} {run : ContextRun} (here : g' p = some run) :=
    (generates.stored_persisted reaches here (persists p run here)).1
  obtain ⟨key, _, isKeyP, isKeyQ, -, -⟩ := generates.same_key reaches ranged hereP hereQ
    ⟨past_of_returned returned hereP 3, past_of_returned returned hereP 4⟩
    (past_of_returned returned hereQ 3)
  have same := ((stored hereP).symm.trans isKeyP).trans (isKeyQ.symm.trans (stored hereQ))
  simp only [Option.some.injEq, List.cons.injEq, and_true] at same
  exact Prod.ext same.1 same.2

end Group

/-- Let some honest node have interpolated from points of honest nodes only. Then the key that all
honest nodes have persisted is the one that the shares of these nodes recover. Another threshold of
honest nodes recovers it exactly if it recovers the same scalar, and that is so if the shares of the
honest nodes are values of one polynomial. -/
theorem agreed_key_recovers (kenv : KeyEnv) (cfg : Config) {E : Type} [AddCommGroup E]
    [Module (ZMod N) E] (law : GroupLaw kenv.curve E) (ranged : kenv.curve.KeepsRange)
    (members ids : List NodeID) (mpcID : Nat) (table : List PeerInfo) (g g' : Group)
    (generates : g.Generates cfg members ids mpcID) (reaches : Group.Reaches kenv cfg members g g')
    (oneTable : Group.OneTable table g g')
    (returned : ∀ p run, g' p = some run → run.pc = .returned none)
    (share : NodeID → Int) (gpk : NodeID → Int × Int) (order : NodeID → Assoc Nat (Int × Int))
    (persists : ∀ p run, g' p = some run →
      Group.Persists kenv cfg members g g' p (order p) (gpk p) (share p))
    (r : NodeID) (isHonest : (g' r).isSome) (S₀ : List NodeID)
    (honest₀ : ∀ q ∈ S₀, (g' q).isSome)
    (interpolated : ((order r).take cfg.mpcSchnrThr.toNat).map Prod.fst =
      S₀.map (getPeerSeed table)) :
    ∃ s₀ : Int,
      lagrange (S₀.map share) (S₀.map fun q => (getPeerSeed table q : Int)) cfg.mpcDegree =
        .ok s₀ ∧
      (∀ p, (g' p).isSome → kenv.curve.scalarBaseMult (intBytes s₀) = .ok (keyPoint (gpk p))) ∧
      ∀ S : List NodeID, S.Nodup → S.length = cfg.mpcSchnrThr → (∀ q ∈ S, (g' q).isSome) →
        ∃ s : Int,
          lagrange (S.map share) (S.map fun q => (getPeerSeed table q : Int)) cfg.mpcDegree =
            .ok s ∧
          (∀ p, (g' p).isSome →
            (kenv.curve.scalarBaseMult (intBytes s) = .ok (keyPoint (gpk p)) ↔ s = s₀)) ∧
          ∀ poly : (ZMod N)[X], poly.degree < S.length →
            (∀ q, (g' q).isSome →
              (share q : ZMod N) = poly.eval (getPeerSeed table q : ZMod N)) → s = s₀ := by
  obtain ⟨run, here⟩ := Option.isSome_iff_exists.mp isHonest
  obtain ⟨distinct₀, threshold, s₀, recovered, range, isKey⟩ :=
    generates.key_of_shares reaches oneTable returned persists law here honest₀ interpolated
  have everyone (p : NodeID) (isHonest : (g' p).isSome) :
      kenv.curve.scalarBaseMult (intBytes s₀) = .ok (keyPoint (gpk p)) := by
    obtain ⟨other, there⟩ := Option.isSome_iff_exists.mp isHonest
    rw [← generates.same_keyPoint reaches returned persists ranged here there]
    exact isKey
  refine ⟨s₀, recovered, everyone, fun S distinct length honest => ?_⟩
  have degree : cfg.mpcDegree = (S.length : Int) - 1 := by rw [Config.mpcDegree, length]
  have nodes := generates.nodes reaches returned oneTable distinct honest
  obtain ⟨s, returnedS, nonneg, small, -⟩ :=
    lagrange_spec (f := S.map share) nodes (List.length_map _).ge
  rw [← degree] at returnedS
  refine ⟨s, returnedS, fun p isHonest => ⟨fun equal => ?_, fun same => ?_⟩, ?_⟩
  · exact scalarBaseMult_inj law ⟨nonneg, small⟩ range (equal.trans (everyone p isHonest).symm)
  · rw [same]
    exact everyone p isHonest
  · intro poly low values
    -- Both sets recover the value of the polynomial at zero.
    have atZero (T : List NodeID) (distinct : T.Nodup) (sameLength : T.length = S.length)
        (honest : ∀ q ∈ T, (g' q).isSome) (t : Int)
        (recovered : lagrange (T.map share) (T.map fun q => (getPeerSeed table q : Int))
          cfg.mpcDegree = .ok t) : (0 ≤ t ∧ t < N) ∧ (t : ZMod N) = poly.eval 0 := by
      have nodes := generates.nodes reaches returned oneTable distinct honest
      rw [degree, ← sameLength] at recovered
      obtain ⟨t', isValue, nonneg, small, value⟩ := lagrange_of_polynomial nodes
        (List.length_map share).ge (sameLength ▸ low) (fun i below => by
          have inT : T[i]? = some (T.get ⟨i, below⟩) := List.getElem?_eq_getElem below
          rw [residues_of_getElem? (by rw [List.getElem?_map, inT]; rfl),
            residues_of_getElem? (by rw [List.getElem?_map, inT]; rfl),
            values _ (honest _ (List.get_mem T ⟨i, below⟩)), Int.cast_natCast])
      cases recovered.symm.trans isValue
      exact ⟨⟨nonneg, small⟩, value⟩
    have length₀ : S₀.length = S.length := by omega
    obtain ⟨rangeS, valueS⟩ := atZero S distinct rfl honest s returnedS
    obtain ⟨-, value₀⟩ := atZero S₀ distinct₀ length₀ honest₀ s₀ recovered
    exact eq_of_residue_eq rangeS range (valueS.trans value₀.symm)

/-! ### A member that shows the others what it likes -/

def trioTable : PointTable where
  entries := [
    (1, Gx, Gy), (2, double), (3, triple),
    (5,
      0x2f8bde4d1a07209355b4a7250a5c5128e88b84bddc619ab7cba8d569b240efe4,
      0xd8ac222636e5e3d6d4dba9dda6c9c426f788271bab0d6840dca87d3aa6ac62d6),
    (N - 4,
      0xe493dbf1c10d80f3581e4904930b1404cc6c13900ee0758474fa94abe8c4cd13,
      0xae1266c15f2baa48a9bd1df6715aebb7269851cc404201bf30168422b88c630d),
    (N - 1, Gx, P - Gy),
    -- the halves of 3 and of -5
    (0x7fffffffffffffffffffffffffffffff5d576e7357a4501ddfe92f46681b20a2,
      0xc62c910e502cb615a27c58512b6cc2c94f5742f76cb3d12ec993400a3695d413,
      0x17f3dadd767275ddd3b23f46723631778bf01dadaebb9a953cf068712457c010),
    (0x7fffffffffffffffffffffffffffffff5d576e7357a4501ddfe92f46681b209e,
      0x5699b93fc6e1bd29e09a328d657a607b4155b61a6b5fcbedd7c12df7c67df8f5,
      0xc147ee87143254976b2e534ce69027482a5c33dc867732a508338f0573368388)]
  multiples := by decide
  range := by decide
  distinct := by decide
  base := by decide

def trioPoint (k : ZMod N) : Int × Int := (trioTable.coords k).getD (0, 0)

def trioEnv : KeyEnv :=
  { KeyFileSample.env with
    curve := trioTable.curve
    keccak256 := fun bytes =>
      if bytes = bePad 32 (trioPoint (-1)).1.natAbs ++ bePad 32 (trioPoint (-1)).2.natAbs then
        word 0xb8e8fc962bf5ccca6c6f73d280c0dbf239224071c59dd8970ab9d542e3414ab2
      else if bytes = utf8 "80c0dbf239224071c59dd8970ab9d542e3414ab2" then
        word 0x7ffd211da7f2319b5751a0a71023221dc351e090ffdd39418e2f0a4be68342f5
      else KeyFileSample.env.keccak256 bytes }

def trioServer (self : NodeID) : MpcDistributor :=
  { KeyFileSample.server 3 with self, storeManIndex := [(1, 0), (2, 1), (3, 2)] }

def trioNodes (leader peer : MpcContext) : Assoc NodeID ContextRun :=
  [(1, .start (trioServer 1) leader), (2, .start (trioServer 2) peer)]

/-- The polynomials of the honest nodes are `1 + x` and `x`; the third member deals -2 and -4, so
that both shares are one. Each honest node interpolates from its own point and that of the third
member, which shows five times the base point to one and twice to the other. -/
def trioTurns : List (NodeID × List Action) :=
  let c₁ := { Choice.plain 1 [0, 1, 0, 2] with draw := KeyFileSample.draw }
  let c₂ := { Choice.plain 0 [] with draw := KeyFileSample.draw }
  let scalars (choice : Choice) (order : Assoc Nat Int) :=
    ({ choice with orders := ⟨[order], []⟩ } : Choice).moves 1
  let points (choice : Choice) (order : Assoc Nat (Int × Int)) :=
    ({ choice with orders := ⟨[], [order]⟩ } : Choice).moves 1
  let dealt (value : Int) : MpcMessage := ⟨7, 2, [], [value], []⟩
  let shown (point : Int × Int) : MpcMessage := ⟨7, 3, [], [point.1, point.2], []⟩
  let told : MpcMessage := ⟨7, 4, [], [],
    [4 :: (bePad 32 (trioPoint (-1)).1.natAbs ++ bePad 32 (trioPoint (-1)).2.natAbs)]⟩
  [(1, c₁.moves 11),
    (2, c₂.moves 16),
    (1, hears 2 ⟨7, 0, [], [1], []⟩ ++ hears 3 ⟨7, 0, [], [1], []⟩ ++ c₁.moves 16),
    (2, hears 1 ⟨7, 1, [], [1], []⟩ ++ c₂.moves 8),
    (1, [.messageLoop 2] ++ hears 2 (dealt 1) ++ hears 3 (dealt (N - 2)) ++ c₁.moves 2
      ++ scalars c₁ [(1, 2), (2, 1), (3, N - 2)] ++ c₁.moves 5),
    (2, hears 1 (dealt 3) ++ [.messageLoop 2] ++ hears 3 (dealt (N - 4)) ++ c₂.moves 2
      ++ scalars c₂ [(1, 3), (2, 2), (3, N - 4)] ++ c₂.moves 5),
    (1, [.messageLoop 3] ++ hears 2 (shown (trioPoint 1)) ++ hears 3 (shown (trioPoint 5))
      ++ c₁.moves 2 ++ points c₁ [(1, trioPoint 1), (3, trioPoint 5), (2, trioPoint 1)]
      ++ c₁.moves 5),
    (2, hears 1 (shown (trioPoint 1)) ++ [.messageLoop 3] ++ hears 3 (shown (trioPoint (2 : Nat)))
      ++ c₂.moves 2 ++ points c₂ [(2, trioPoint 1), (3, trioPoint (2 : Nat)), (1, trioPoint 1)]
      ++ c₂.moves 5),
    (1, [.messageLoop 4] ++ hears 2 told ++ hears 3 told ++ c₁.moves 16),
    (2, hears 1 told ++ [.messageLoop 4] ++ hears 3 told ++ c₂.moves 16)]

def trioRun : Option (Assoc NodeID ContextRun) :=
  match createContext ⟨2, 3⟩ .mpcGPKLeader 7 [⟨1, 0⟩, ⟨2, 0⟩, ⟨3, 0⟩] [],
      createContext ⟨2, 3⟩ .mpcGPKPeer 7 [⟨1, 1⟩, ⟨2, 2⟩, ⟨3, 3⟩] [] with
  | .ok leader, .ok peer =>
    Group.follow trioEnv ⟨2, 3⟩ [1, 2, 3] trioTurns (trioNodes leader peer)
  | _, _ => none

/-- What is looked at when a run is over. -/
structure Final where
  pc : Pc
  peers : List PeerInfo
  gpk : Option (List Int)
  share : Option (List Int)
  deriving DecidableEq, Repr

def final (run : ContextRun) : Final :=
  ⟨run.pc, run.ctx.peers, run.ctx.mpcResult.result .publicKeyResult,
    run.ctx.mpcResult.result .mpcPrivateShare⟩

private theorem trioRun_final :
    trioRun.map (fun nodes => [(nodes.lookup 1).map final, (nodes.lookup 2).map final]) =
      some (List.replicate 2 (some ⟨.returned none, [⟨1, 1⟩, ⟨2, 2⟩, ⟨3, 3⟩],
        some [(trioPoint (-1)).1, (trioPoint (-1)).2], some [1]⟩)) := by
  decide +kernel

theorem trioNodes_generates {leader peer : MpcContext}
    (createdLeader : createContext ⟨2, 3⟩ .mpcGPKLeader 7 [⟨1, 0⟩, ⟨2, 0⟩, ⟨3, 0⟩] [] = .ok leader)
    (createdPeer : createContext ⟨2, 3⟩ .mpcGPKPeer 7 [⟨1, 1⟩, ⟨2, 2⟩, ⟨3, 3⟩] [] = .ok peer) :
    (Group.ofList (trioNodes leader peer)).Generates ⟨2, 3⟩ [1, 2, 3] [1, 2, 3] 7 := by
  refine ⟨fun q member => member, fun p run found => ?_⟩
  rcases List.mem_cons.mp (Assoc.mem_of_lookup found) with first | second
  · obtain ⟨rfl, rfl⟩ := Prod.mk.inj first
    exact ⟨by simp, trioServer 1, true, _, leader, rfl, rfl, rfl, createdLeader⟩
  · obtain ⟨rfl, rfl⟩ := Prod.mk.inj (List.mem_singleton.mp second)
    exact ⟨by simp, trioServer 2, false, _, peer, rfl, rfl, rfl, createdPeer⟩

/-- How two honest nodes end that follow a schedule. -/
theorem finals_of_follow {kenv : KeyEnv} {cfg : Config} {members : List NodeID}
    {turns : List (NodeID × List Action)} {nodes : Assoc NodeID ContextRun} {outcome : Final}
    (followed : Group.follow kenv cfg members turns [(1, first), (2, second)] = some nodes)
    (finals : [(nodes.lookup 1).map final, (nodes.lookup 2).map final] =
      List.replicate 2 (some outcome)) :
    (∀ p run, Group.ofList nodes p = some run → p ∈ [1, 2] ∧ final run = outcome) ∧
      ∀ p ∈ [1, 2], ∃ run, Group.ofList nodes p = some run := by
  simp only [List.replicate, List.cons.injEq, and_true] at finals
  have ends (p : NodeID) (inside : p ∈ [1, 2]) :
      ∃ run, Group.ofList nodes p = some run ∧ final run = outcome := by
    rcases List.mem_cons.mp inside with rfl | second
    · exact Option.map_eq_some_iff.mp finals.1
    · rw [List.mem_singleton.mp second]
      exact Option.map_eq_some_iff.mp finals.2
  constructor
  · intro p run here
    obtain ⟨start, found, -⟩ := (Group.reaches_of_follow followed).origin here
    have inside : p ∈ [1, 2] := List.mem_map_of_mem (f := Prod.fst) (Assoc.mem_of_lookup found)
    obtain ⟨run', found', isFinal⟩ := ends p inside
    cases found'.symm.trans here
    exact ⟨inside, isFinal⟩
  · intro p inside
    obtain ⟨run, here, -⟩ := ends p inside
    exact ⟨run, here⟩

theorem oneTable_of_finals {table : List PeerInfo} {nodes : Assoc NodeID ContextRun}
    {outcome : Final} (isTable : outcome.peers = table)
    (zero : ∀ peer ∈ first.ctx.peers, peer.seed = 0) (told : second.ctx.peers = table)
    (finals : ∀ p run, Group.ofList nodes p = some run → p ∈ [1, 2] ∧ final run = outcome) :
    Group.OneTable table (Group.ofList [(1, first), (2, second)]) (Group.ofList nodes) := by
  constructor
  · intro p run found
    rcases List.mem_cons.mp (Assoc.mem_of_lookup found) with isFirst | isSecond
    · obtain ⟨rfl, rfl⟩ := Prod.mk.inj isFirst
      exact .inl zero
    · obtain ⟨rfl, rfl⟩ := Prod.mk.inj (List.mem_singleton.mp isSecond)
      exact .inr told
  · intro p run here
    exact (congrArg Final.peers (finals p run here).2).trans isTable

/-- With one member that shows two honest nodes different points, both end with a key that is not
the one of their shares. -/
theorem agreed_key_of_no_shares :
    ∃ (g g' : Group) (s : Int),
      Nonempty (GroupLaw trioEnv.curve (ZMod N)) ∧
      g.Generates ⟨2, 3⟩ [1, 2, 3] [1, 2, 3] 7 ∧
      Group.Reaches trioEnv ⟨2, 3⟩ [1, 2, 3] g g' ∧
      Group.OneTable [⟨1, 1⟩, ⟨2, 2⟩, ⟨3, 3⟩] g g' ∧ g' 3 = none ∧
      (∀ p ∈ [1, 2], ∃ run order, g' p = some run ∧ run.pc = .returned none ∧
        Group.Persists trioEnv ⟨2, 3⟩ [1, 2, 3] g g' p order (trioPoint (-1)) 1) ∧
      lagrange [1, 1] [1, 2] (Config.mpcDegree ⟨2, 3⟩) = .ok s ∧
      trioEnv.curve.scalarBaseMult (intBytes s) ≠ .ok (keyPoint (trioPoint (-1))) := by
  obtain ⟨nodes, followed, finals⟩ := Option.map_eq_some_iff.mp trioRun_final
  unfold trioRun at followed
  split at followed
  next leader peer createdLeader createdPeer =>
    have generates := trioNodes_generates createdLeader createdPeer
    have reaches := Group.reaches_of_follow followed
    obtain ⟨isFinal, runs⟩ := finals_of_follow followed finals
    have returned (p : NodeID) (run : ContextRun) (here : Group.ofList nodes p = some run) :
        run.pc = .returned none :=
      congrArg Final.pc (isFinal p run here).2
    have oneTable : Group.OneTable [⟨1, 1⟩, ⟨2, 2⟩, ⟨3, 3⟩]
        (Group.ofList (trioNodes leader peer)) (Group.ofList nodes) := by
      refine oneTable_of_finals rfl ?_ (createContext_peers createdPeer) isFinal
      rw [ContextRun.start, createContext_peers createdLeader]
      simp
    refine ⟨_, _, 1, ⟨trioTable.law⟩, generates, reaches, oneTable, ?_, ?_, by decide +kernel,
      by decide +kernel⟩
    -- the third member is not honest, so it has no run
    · cases third : Group.ofList nodes 3 with
      | none => rfl
      | some run => exact absurd (isFinal 3 run third).1 (by decide +kernel)
    · intro p inside
      obtain ⟨run, here⟩ := runs p inside
      have ended := (isFinal p run here).2
      obtain ⟨order, gpk, share, persists⟩ := generates.persists reaches returned here
      obtain ⟨isKey, rest, isShare⟩ := generates.stored_persisted reaches here persists
      -- what a node has persisted is what its run has stored
      have keys := isKey.symm.trans (congrArg Final.gpk ended)
      have shares := isShare.symm.trans (congrArg Final.share ended)
      simp only [Option.some.injEq, List.cons.injEq, and_true] at keys shares
      obtain rfl : gpk = trioPoint (-1) := Prod.ext keys.1 keys.2
      obtain rfl : share = 1 := shares.1
      exact ⟨run, order, here, returned p run here, persists⟩
  next => cases followed

/-! ### A group without such a member -/

def tableEnv : KeyEnv := { KeyFileSample.env with curve := trioTable.curve }

def tableRun : Option (Assoc NodeID ContextRun) :=
  match createContext ⟨1, 2⟩ .mpcGPKLeader 7 [⟨1, 0⟩, ⟨2, 0⟩] [],
      createContext ⟨1, 2⟩ .mpcGPKPeer 7 [⟨1, 5⟩, ⟨2, 6⟩] [] with
  | .ok leader, .ok peer =>
    Group.follow tableEnv ⟨1, 2⟩ [1, 2] pairTurns (pairNodes leader peer)
  | _, _ => none

private theorem tableRun_final :
    tableRun.map (fun nodes => [(nodes.lookup 1).map final, (nodes.lookup 2).map final]) =
      some (List.replicate 2 (some ⟨.returned none, [⟨1, 5⟩, ⟨2, 6⟩],
        some [(trioPoint 1).1, (trioPoint 1).2], some [1]⟩)) := by
  decide +kernel

theorem agreed_key_recovers_pair :
    ∃ (g g' : Group) (order : Assoc Nat (Int × Int)) (gpk : Int × Int) (share s₀ : Int),
      g.Generates ⟨1, 2⟩ [1, 2] [1, 2] 7 ∧ Group.Reaches tableEnv ⟨1, 2⟩ [1, 2] g g' ∧
      Group.Persists tableEnv ⟨1, 2⟩ [1, 2] g g' 1 order gpk share ∧
      tableEnv.curve.scalarBaseMult (intBytes s₀) = .ok (keyPoint gpk) := by
  obtain ⟨nodes, followed, finals⟩ := Option.map_eq_some_iff.mp tableRun_final
  unfold tableRun at followed
  split at followed
  next leader peer createdLeader createdPeer =>
    have generates := pairNodes_generates createdLeader createdPeer
    have reaches := Group.reaches_of_follow followed
    obtain ⟨isFinal, runs⟩ := finals_of_follow followed finals
    have returned (p : NodeID) (run : ContextRun) (here : Group.ofList nodes p = some run) :
        run.pc = .returned none :=
      congrArg Final.pc (isFinal p run here).2
    have oneTable : Group.OneTable [⟨1, 5⟩, ⟨2, 6⟩]
        (Group.ofList (pairNodes leader peer)) (Group.ofList nodes) := by
      refine oneTable_of_finals rfl ?_ (createContext_peers createdPeer) isFinal
      rw [ContextRun.start, createContext_peers createdLeader]
      simp
    have files (p : NodeID) : ∃ order gpk share, ∀ run, Group.ofList nodes p = some run →
        Group.Persists tableEnv ⟨1, 2⟩ [1, 2] (Group.ofList (pairNodes leader peer))
          (Group.ofList nodes) p order gpk share := by
      cases here : Group.ofList nodes p with
      | none => exact ⟨[], (0, 0), 0, fun run found => by cases found⟩
      | some run =>
        obtain ⟨order, gpk, share, persists⟩ := generates.persists reaches returned here
        exact ⟨order, gpk, share, fun _ _ => persists⟩
    choose order gpk share persists using files
    obtain ⟨run, here⟩ := runs 1 (by simp)
    -- Whichever point comes first in the map, it is one of an honest node.
    obtain ⟨q, honest, isSeed⟩ : ∃ q, (Group.ofList nodes q).isSome ∧
        ((order 1).take 1).map Prod.fst = [getPeerSeed [⟨1, 5⟩, ⟨2, 6⟩] q] := by
      have shown := generates.shown reaches oneTable here (persists 1 run here)
      obtain ⟨_, _, _, _, _, _, _, _, -, -, -, key⟩ := persists 1 run here
      have enough := (MpcPointGenerator.calculateResult_eq_ok key.calculated).1
      cases isOrder : order 1 with
      | nil =>
        rw [isOrder] at enough
        exact absurd enough (by decide)
      | cons entry rest =>
        obtain ⟨q, -, -, -, isSeed, nonzero, -⟩ := shown.origin entry
          (by rw [isOrder]; exact List.mem_cons_self)
        have listed := List.mem_map_of_mem (f := PeerInfo.peerID)
          (mem_of_getPeerSeed (.inl (isSeed ▸ nonzero)))
        obtain ⟨other, there⟩ := runs q listed
        refine ⟨q, by simp [there], ?_⟩
        rw [isSeed]
        rfl
    obtain ⟨s₀, -, isKey, -⟩ := agreed_key_recovers tableEnv ⟨1, 2⟩ trioTable.law
      trioTable.keepsRange [1, 2] [1, 2] 7 [⟨1, 5⟩, ⟨2, 6⟩] _ _ generates reaches oneTable returned
      share gpk order persists 1 (Option.isSome_iff_exists.mpr ⟨run, here⟩) [q]
      (by simpa using honest) isSeed
    exact ⟨_, _, order 1, gpk 1, share 1, s₀, generates, reaches, persists 1 run here,
      isKey 1 (Option.isSome_iff_exists.mpr ⟨run, here⟩)⟩
  next => cases followed

end SchnorrMpc
