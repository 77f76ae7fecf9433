import SchnorrMpc.Crypto.PointTable
import SchnorrMpc.Properties.HonestRun

/-!
# Honest signatures verify

A group in which everybody generates and signs as the protocol says computes
one key, one nonce point and one scalar, whoever computes them and from
whichever shares, and the acknowledgement step accepts them.
-/
namespace SchnorrMpc

open Lib S256 Polynomial

variable {k : Nat} {f : PeerInfo → SchnorrMpc.Polynomial} {j : PeerInfo} {m : Int}
  {gpk R : Int × Int} {store : BaseMpcResult}

def challenge (env : Env) (message : Bytes) (R : Int × Int) : Go Int := do
  let encoded ← fromECDSAPub (some R)
  pure (beNat (env.sha256 ((env.sha256 message).val ++ encoded)).val)

theorem challenge_spec {env : Env} {E : Type} [AddCommGroup E] [Module (ZMod N) E]
    (law : GroupLaw env.curve E) {Q : E} {x y : Int} (found : law.coords Q = some (x, y))
    (message : Bytes) : ∃ m, challenge env message (x, y) = .ok m ∧ 0 ≤ m ∧ m < 256 ^ 32 := by
  have encoding := law.fromECDSAPub_coords found
  rw [found] at encoding
  refine ⟨_, by rw [challenge, encoding]; rfl, by positivity, ?_⟩
  exact_mod_cast beNat_val_lt _

/-- The data of a key generation and a signing in which all nodes are honest. -/
structure HonestRun (env : Env) (cfg : Config) where
  peers : List PeerInfo
  table : PeerTable peers
  positive : 1 ≤ cfg.mpcSchnrThr
  enough : cfg.mpcSchnrThr ≤ peers.length
  keyPoly : PeerInfo → SchnorrMpc.Polynomial
  noncePoly : PeerInfo → SchnorrMpc.Polynomial
  keyPoly_length : ∀ i ∈ peers, ((keyPoly i).length : Int) = cfg.mpcSchnrThr
  noncePoly_length : ∀ i ∈ peers, ((noncePoly i).length : Int) = cfg.mpcSchnrThr
  keyShare : PeerInfo → Int
  nonceShare : PeerInfo → Int
  holds_key : ∀ j ∈ peers, HoldsShare cfg peers keyPoly j (keyShare j)
  holds_nonce : ∀ j ∈ peers, HoldsShare cfg peers noncePoly j (nonceShare j)
  /-- The public shares; none of them is the point at infinity. -/
  keyPoint : PeerInfo → Int × Int
  noncePoint : PeerInfo → Int × Int
  key_point : ∀ j ∈ peers, env.curve.scalarBaseMult (intBytes (keyShare j)) =
    .ok (some (keyPoint j))
  nonce_point : ∀ j ∈ peers,
    env.curve.scalarBaseMult (intBytes (nonceShare j)) = .ok (some (noncePoint j))
  message : Bytes

namespace HonestRun

variable {env : Env} {cfg : Config} (run : HonestRun env cfg)

/-- What the result store of node `j` holds when it signs. -/
structure Stored (j : PeerInfo) (gpk R : Int × Int) (store : BaseMpcResult) : Prop where
  message : store.byteResult .mpcM = some run.message
  key : store.result .publicKeyResult = some [gpk.1, gpk.2]
  nonce : store.result .rPublicKeyResult = some [R.1, R.2]
  keyShare : store.result .mpcPrivateShare = some [run.keyShare j]
  nonceShare : store.result .rMpcPrivateShare = some [run.nonceShare j]

include run in
theorem exists_threshold : ∃ k : Nat, cfg.mpcSchnrThr = k ∧ 0 < k := by
  have := run.positive
  exact ⟨cfg.mpcSchnrThr.toNat, by omega, by omega⟩

/-! ### The values every node computes -/

variable {E : Type} [AddCommGroup E] [Module (ZMod N) E]

private theorem coords_share (law : GroupLaw env.curve E) (threshold : cfg.mpcSchnrThr = k)
    (lengths : ∀ i ∈ run.peers, (f i).length = k) {share : Int} {point : Int × Int}
    (holds : HoldsShare cfg run.peers f j share)
    (computed : env.curve.scalarBaseMult (intBytes share) = .ok (some point)) :
    law.coords ((groupPoly k run.peers f).eval (j.seed : ZMod N) • law.base) = some point := by
  obtain ⟨nonneg, small, onPoly⟩ := holdsShare_spec threshold lengths holds
  have fits : share < 256 ^ 32 := small.trans (by decide)
  rw [law.scalarBaseMult_int nonneg fits, onPoly] at computed
  exact Outcome.ok.inj computed

/-- Interpolation of public shares gives the public key of the group secret. -/
private theorem calculateResult_point (law : GroupLaw env.curve E) (threshold : cfg.mpcSchnrThr = k)
    (positive : 0 < k) {share : PeerInfo → Int × Int}
    (onPoly : ∀ j ∈ run.peers,
      law.coords ((groupPoly k run.peers f).eval (j.seed : ZMod N) • law.base) = some (share j))
    {result : Int × Int} (finite : law.coords (groupSecret run.peers f • law.base) = some result)
    (point : MpcPointGenerator) {order : Assoc Nat (Int × Int)}
    (collected : Collected cfg run.peers share order) :
    MpcPointGenerator.calculateResult env cfg point order = .ok { point with result } := by
  have interpolated := lagrangeECC_collected law threshold positive run.table
    (degree_groupPoly_lt k run.peers f) onPoly collected
  rw [eval_groupPoly_zero positive, finite] at interpolated
  obtain ⟨xPos, -, yPos, -⟩ := law.coords_range _ _ _ finite
  have valid : validatePublicKey (some result) = true := by
    simp [validatePublicKey, xPos.ne', yPos.ne']
  simp only [MpcPointGenerator.calculateResult]
  rw [if_neg (by simpa using collected.enough), interpolated]
  simp [valid]

/-- The signature shares are the values of one polynomial, whose value at zero is the signature. -/
private theorem calculateResult_scalar (threshold : cfg.mpcSchnrThr = k) {p : (ZMod N)[X]}
    (degree : p.degree < k) {sig : PeerInfo → Int}
    (onPoly : ∀ j ∈ run.peers, (sig j : ZMod N) = p.eval (j.seed : ZMod N)) (msg : MpcSGenerator)
    {order : Assoc Nat Int} (collected : Collected cfg run.peers sig order) :
    MpcSGenerator.calculateResult cfg msg order =
      .ok { msg with result := ((p.eval 0).val : Int) } := by
  obtain ⟨value, returned, nonneg, small, cast⟩ :=
    lagrange_collected threshold run.table degree onPoly collected
  have value_eq : value = ((p.eval 0).val : Int) := by
    rw [← cast, ZMod.val_intCast, Int.emod_eq_of_lt nonneg small]
  simp only [MpcSGenerator.calculateResult]
  rw [if_neg (by simpa using collected.enough), returned, value_eq]
  rfl

theorem cast_schnorrSign (psk r m : Int) :
    ((schnorrSign psk r m : Int) : ZMod N) = m * psk + r := by
  simp only [schnorrSign, ZMod.intCast_mod, Int.cast_add, Int.cast_mul]
  ring

private theorem initializeFrom_signs (challenged : challenge env run.message R = .ok m)
    (stored : run.Stored j gpk R store) (msg : MpcSGenerator) :
    MpcSGenerator.initializeFrom env msg store =
      .ok { msg with seed := schnorrSign (run.keyShare j) (run.nonceShare j) m } := by
  rw [challenge, Outcome.bind_eq_ok_iff] at challenged
  obtain ⟨encoded, encoding, hashed⟩ := challenged
  cases hashed
  simp only [MpcSGenerator.initializeFrom, BaseMpcResult.getValue, BaseMpcResult.getByteValue,
    stored.message, stored.nonce, stored.keyShare, stored.nonceShare]
  simp [Outcome.index, encoding]

/-- The acknowledgement step accepts a result that solves the signature equation. -/
private theorem verifyRS_accepts {S : Int} {T : Int × Int} {mgpk : Point}
    (challenged : challenge env run.message R = .ok m)
    (product : env.curve.scalarMult (some gpk) (intBytes m) = .ok mgpk)
    (sum : env.curve.add mgpk (some R) = .ok (some T))
    (signed : env.curve.scalarBaseMult (intBytes S) = .ok (some T))
    (encodes : ∀ point ∈ [T, gpk], ∃ bytes, fromECDSAPub (some point) = .ok bytes)
    (stored : run.Stored j gpk R store) {mars : MpcAckRSStep} (ownR : mars.mpcR = R)
    (ownS : mars.mpcS = S) (sameR : ∀ entry ∈ mars.remoteMpcR, entry.2 = R)
    (sameS : ∀ entry ∈ mars.remoteMpcS, entry.2 = S) :
    MpcAckRSStep.verifyRS env mars store = .ok () := by
  rw [challenge, Outcome.bind_eq_ok_iff] at challenged
  obtain ⟨encoded, encoding, hashed⟩ := challenged
  cases hashed
  obtain ⟨tBytes, tEncoding⟩ := encodes T (by simp)
  obtain ⟨kBytes, kEncoding⟩ := encodes gpk (by simp)
  subst ownR ownS
  have agreeR : mars.remoteMpcR.any
      (fun entry => mars.mpcR.1 != entry.2.1 || mars.mpcR.2 != entry.2.2) = false := by
    rw [List.any_eq_false]
    intro entry member
    simp [sameR entry member]
  have agreeS : mars.remoteMpcS.any (fun entry => mars.mpcS != entry.2) = false := by
    rw [List.any_eq_false]
    intro entry member
    simp [sameS entry member]
  simp only [MpcAckRSStep.verifyRS, agreeR, agreeS, BaseMpcResult.getValue,
    BaseMpcResult.getByteValue, stored.message, stored.key]
  simp [Outcome.index, encoding, product, sum, signed, tEncoding, kEncoding]

/-! ### The signature of a run -/

/-- Honest key generation followed by honest signing verifies, identically on every node. -/
theorem signature_verifies (law : GroupLaw env.curve E)
    (keyFinite : groupSecret run.peers run.keyPoly • law.base ≠ 0)
    (nonceFinite : groupSecret run.peers run.noncePoly • law.base ≠ 0) :
    ∃ (gpk R : Int × Int) (m S : Int) (sig : PeerInfo → Int),
      -- every node computes the same key and the same nonce point
      (∀ point order, Collected cfg run.peers run.keyPoint order →
        MpcPointGenerator.calculateResult env cfg point order =
          .ok { point with result := gpk }) ∧
      (∀ point order, Collected cfg run.peers run.noncePoint order →
        MpcPointGenerator.calculateResult env cfg point order =
          .ok { point with result := R }) ∧
      -- every node signs the same challenge and computes the same scalar
      challenge env run.message R = .ok m ∧
      (∀ j ∈ run.peers, sig j = schnorrSign (run.keyShare j) (run.nonceShare j) m ∧
        ∀ msg store, run.Stored j gpk R store →
          MpcSGenerator.initializeFrom env msg store = .ok { msg with seed := sig j }) ∧
      (∀ msg order, Collected cfg run.peers sig order →
        MpcSGenerator.calculateResult cfg msg order = .ok { msg with result := S }) ∧
      0 ≤ S ∧ S < N ∧
      -- the signature equation, and its check on every node
      (∃ mgpk, env.curve.scalarMult (some gpk) (intBytes m) = .ok mgpk ∧
        env.curve.add mgpk (some R) = env.curve.scalarBaseMult (intBytes S)) ∧
      (env.curve.scalarBaseMult (intBytes S) ≠ .ok none →
        ∀ j ∈ run.peers, ∀ store mars, run.Stored j gpk R store →
          mars.mpcR = R → mars.mpcS = S →
          (∀ entry ∈ mars.remoteMpcR, entry.2 = R) →
          (∀ entry ∈ mars.remoteMpcS, entry.2 = S) →
          MpcAckRSStep.verifyRS env mars store = .ok ()) := by
  obtain ⟨k, threshold, positive⟩ := run.exists_threshold
  have keyLengths (i) (member : i ∈ run.peers) : (run.keyPoly i).length = k := by
    have := run.keyPoly_length i member; omega
  have nonceLengths (i) (member : i ∈ run.peers) : (run.noncePoly i).length = k := by
    have := run.noncePoly_length i member; omega
  have bytesLarge : (N : Int) < 256 ^ 32 := by decide
  obtain ⟨gx, gy, gpkFound⟩ := law.exists_coords keyFinite
  obtain ⟨rx, ry, RFound⟩ := law.exists_coords nonceFinite
  obtain ⟨m, challenged, mNonneg, mFits⟩ := challenge_spec law RFound run.message
  -- the polynomial on which all signature shares lie
  let p : (ZMod N)[X] := C (m : ZMod N) * groupPoly k run.peers run.keyPoly
    + groupPoly k run.peers run.noncePoly
  have degree : p.degree < k := by
    refine (degree_add_le _ _).trans_lt (max_lt ?_ (degree_groupPoly_lt k _ _))
    rw [← smul_eq_C_mul]
    exact (degree_smul_le _ _).trans_lt (degree_groupPoly_lt k _ _)
  have pZero : p.eval 0 = m * groupSecret run.peers run.keyPoly
      + groupSecret run.peers run.noncePoly := by
    simp only [p, eval_add, eval_mul, eval_C, eval_groupPoly_zero positive]
  have sNonneg : (0 : Int) ≤ ((p.eval 0).val : Int) := by positivity
  have sSmall : ((p.eval 0).val : Int) < N := by exact_mod_cast ZMod.val_lt (p.eval 0)
  have signed : env.curve.scalarBaseMult (intBytes ((p.eval 0).val : Int)) =
      .ok (law.coords (p.eval 0 • law.base)) := by
    rw [law.scalarBaseMult_int sNonneg (sSmall.trans bytesLarge), Int.cast_natCast,
      ZMod.natCast_zmod_val]
  have product := law.scalarMult_int (groupSecret run.peers run.keyPoly • law.base) mNonneg mFits
  rw [gpkFound] at product
  have sum := law.add ((m : ZMod N) • groupSecret run.peers run.keyPoly • law.base)
    (groupSecret run.peers run.noncePoly • law.base)
  rw [RFound, smul_smul, ← add_smul, ← pZero] at sum
  rw [smul_smul] at product
  refine ⟨(gx, gy), (rx, ry), m, (p.eval 0).val,
    fun j => schnorrSign (run.keyShare j) (run.nonceShare j) m, ?_, ?_, challenged, ?_, ?_,
    sNonneg, sSmall, ⟨_, product, by rw [sum, signed]⟩, ?_⟩
  -- the points on the curve that the steps GPK and R interpolate
  · intro point order collected
    exact run.calculateResult_point law threshold positive (fun j member =>
      run.coords_share law threshold keyLengths (run.holds_key j member) (run.key_point j member))
      gpkFound point collected
  · intro point order collected
    exact run.calculateResult_point law threshold positive (fun j member =>
      run.coords_share law threshold nonceLengths (run.holds_nonce j member)
        (run.nonce_point j member)) RFound point collected
  · intro j _
    exact ⟨rfl, fun msg store stored => run.initializeFrom_signs challenged stored msg⟩
  · intro msg order collected
    -- each share is the value of the polynomial at the seed of its node
    refine run.calculateResult_scalar threshold degree (fun j member => ?_) msg collected
    rw [cast_schnorrSign, (holdsShare_spec threshold keyLengths (run.holds_key j member)).2.2,
      (holdsShare_spec threshold nonceLengths (run.holds_nonce j member)).2.2]
    simp only [p, eval_add, eval_mul, eval_C]
  · intro finite j _ store mars stored ownR ownS sameR sameS
    -- the sum is a finite point, so it can be encoded and compared
    have notZero : p.eval 0 • law.base ≠ 0 := by
      intro zero
      exact finite (by rw [signed, zero, law.coords_zero])
    obtain ⟨tx, ty, TFound⟩ := law.exists_coords notZero
    refine run.verifyRS_accepts challenged product (T := (tx, ty)) (by rw [sum, TFound])
      (by rw [signed, TFound]) ?_ stored ownR ownS sameR sameS
    have tEncoding := law.fromECDSAPub_coords TFound
    have kEncoding := law.fromECDSAPub_coords gpkFound
    rw [TFound] at tEncoding
    rw [gpkFound] at kEncoding
    simpa using ⟨⟨_, tEncoding⟩, ⟨_, kEncoding⟩⟩

/-! ### Two nodes with threshold two -/

def twoNodeTable : PointTable where
  entries := [
    (1, Gx, Gy), (2, double), (3, triple),
    (4,
      0xe493dbf1c10d80f3581e4904930b1404cc6c13900ee0758474fa94abe8c4cd13,
      0x51ed993ea0d455b75642e2098ea51448d967ae33bfbdfe40cfe97bdc47739922),
    (6,
      0xfff97bd5755eeea420453a14355235d382f6472f8568a18b2f057a1460297556,
      0xae12777aacfbb620f3be96017f45c560de80f0f6518fe4a03c870c36b075f297),
    (N - 3, triple.1, P - triple.2),
    (N - 4,
      0xe493dbf1c10d80f3581e4904930b1404cc6c13900ee0758474fa94abe8c4cd13,
      0xae1266c15f2baa48a9bd1df6715aebb7269851cc404201bf30168422b88c630d),
    (0xc46a0092eb0570682a823a4c2b226d38d73b397bf5ad51f28ff5851ad0f30938,
      0x89252fccee333bbe1dc968cb7191f59aa8a2e6e94cf5628a350c2a6ee2382baa,
      0x2454ce06fd43fdce403202994f2d61fb91734e7ec1e9c864adab9ca06a22853f),
    (0xc46a0092eb0570682a823a4c2b226d38d73b397bf5ad51f28ff5851ad0f3093a,
      0x1e5f470c66c1bd2dc103b0f3fa42326ce2c2bf910fd1714d7802a6ffcf064f4c,
      0x5cea495aaf913e2966dac085586b819f811c3dc6b226991531153e46c3ac7df8)]
  multiples := by decide
  range := by decide
  distinct := by decide
  base := by decide

/-- The SHA-256 digests of the message and of the string that is signed. -/
def twoNodeEnv : Env where
  curve := twoNodeTable.curve
  sha256 bytes := if bytes = [1] then
      word 0x4bf5122f344554c53bde2ebb8cd2b7e3d1600ad631c385a5d7cce23c7785459a
    else word 0xc46a0092eb0570682a823a4c2b226d38d73b397bf5ad51f28ff5851ad0f30938
  keccak256 _ := word 0

def twoNodeConfig : Config := ⟨2, 2⟩

/-- The polynomials sum up to `1 + x` for the key and to `2 + x` for the nonce. -/
def twoNodeRun : HonestRun twoNodeEnv twoNodeConfig where
  peers := [⟨1, 1⟩, ⟨2, 2⟩]
  table := ⟨by decide, by decide⟩
  positive := by decide
  enough := by decide
  keyPoly peer := if peer.seed = 1 then [1, 0] else [0, 1]
  noncePoly peer := if peer.seed = 1 then [2, 0] else [0, 1]
  keyPoly_length := by decide
  noncePoly_length := by decide
  keyShare peer := 1 + peer.seed
  nonceShare peer := 2 + peer.seed
  holds_key := by
    refine List.forall_mem_cons.mpr ⟨?_, List.forall_mem_singleton.mpr ?_⟩
    · exact ⟨[(1, 1), (2, 1)], _, ⟨[], [], [], none⟩, by decide, .refl _, by decide⟩
    · exact ⟨[(1, 1), (2, 2)], _, ⟨[], [], [], none⟩, by decide, .refl _, by decide⟩
  holds_nonce := by
    refine List.forall_mem_cons.mpr ⟨?_, List.forall_mem_singleton.mpr ?_⟩
    · exact ⟨[(1, 2), (2, 1)], _, ⟨[], [], [], none⟩, by decide, .refl _, by decide⟩
    · exact ⟨[(1, 2), (2, 2)], _, ⟨[], [], [], none⟩, by decide, .refl _, by decide⟩
  keyPoint peer := (twoNodeTable.coords (1 + peer.seed)).getD (0, 0)
  noncePoint peer := (twoNodeTable.coords (2 + peer.seed)).getD (0, 0)
  key_point := by decide
  nonce_point := by decide
  message := [1]

/-- What the first node has stored when it verifies the signature `m + 2`. -/
def twoNodeStore : BaseMpcResult :=
  ((((BaseMpcResult.create.setByteValue .mpcM [1]).setValue .publicKeyResult [Gx, Gy]).setValue
    .rPublicKeyResult
      [double.1, double.2]).setValue
    .mpcPrivateShare [2]).setValue .rMpcPrivateShare [3]

def twoNodeAck : MpcAckRSStep where
  message := [(1, true), (2, true)]
  remoteMpcR := [(1, (twoNodeTable.coords 2).getD (0, 0)), (2, (twoNodeTable.coords 2).getD (0, 0))]
  remoteMpcS := [(1, 0xc46a0092eb0570682a823a4c2b226d38d73b397bf5ad51f28ff5851ad0f3093a),
    (2, 0xc46a0092eb0570682a823a4c2b226d38d73b397bf5ad51f28ff5851ad0f3093a)]
  mpcR := (twoNodeTable.coords 2).getD (0, 0)
  mpcS := 0xc46a0092eb0570682a823a4c2b226d38d73b397bf5ad51f28ff5851ad0f3093a

theorem signature_verifies_twoNodes :
    groupSecret twoNodeRun.peers twoNodeRun.keyPoly • twoNodeTable.law.base ≠ 0 ∧
    groupSecret twoNodeRun.peers twoNodeRun.noncePoly • twoNodeTable.law.base ≠ 0 ∧
    MpcAckRSStep.verifyRS twoNodeEnv twoNodeAck twoNodeStore = .ok () := by
  refine ⟨by decide, by decide, ?_⟩
  obtain ⟨gpk, R, m, S, sig, key, nonce, challenged, signs, scalar, -, -, -, verifies⟩ :=
    twoNodeRun.signature_verifies twoNodeTable.law (by decide) (by decide)
  have collected {V : Type} (value : PeerInfo → V) : Collected twoNodeConfig twoNodeRun.peers value
      [(2, value ⟨2, 2⟩), (1, value ⟨1, 1⟩)] :=
    ⟨by simp [twoNodeConfig], [⟨2, 2⟩, ⟨1, 1⟩], by decide +kernel, by decide +kernel, rfl⟩
  have gpk_eq : gpk = ((Gx : Int), (Gy : Int)) := by
    have computed := key (createPointGenerator .mpcPublicShare) _ (collected _)
    have evaluated : MpcPointGenerator.calculateResult twoNodeEnv twoNodeConfig
        (createPointGenerator .mpcPublicShare)
        [(2, twoNodeRun.keyPoint ⟨2, 2⟩), (1, twoNodeRun.keyPoint ⟨1, 1⟩)] =
          .ok { createPointGenerator .mpcPublicShare with result := ((Gx : Int), (Gy : Int)) } := by
      decide +kernel
    rw [evaluated] at computed
    simpa using computed.symm
  have R_eq : R = twoNodeAck.mpcR := by
    have computed := nonce (createPointGenerator .rMpcPublicShare) _ (collected _)
    have evaluated : MpcPointGenerator.calculateResult twoNodeEnv twoNodeConfig
        (createPointGenerator .rMpcPublicShare)
        [(2, twoNodeRun.noncePoint ⟨2, 2⟩), (1, twoNodeRun.noncePoint ⟨1, 1⟩)] =
          .ok { createPointGenerator .rMpcPublicShare with result := twoNodeAck.mpcR } := by
      decide +kernel
    rw [evaluated] at computed
    simpa using computed.symm
  subst gpk_eq R_eq
  have m_eq : m = twoNodeAck.mpcS - 2 := by
    have evaluated : challenge twoNodeEnv twoNodeRun.message twoNodeAck.mpcR =
        .ok (twoNodeAck.mpcS - 2) := by decide +kernel
    rw [evaluated] at challenged
    simpa using challenged.symm
  have S_eq : S = twoNodeAck.mpcS := by
    have computed := scalar (createSGenerator .mpcPrivateShare) _ (collected _)
    rw [(signs ⟨1, 1⟩ (by decide +kernel)).1, (signs ⟨2, 2⟩ (by decide +kernel)).1, m_eq]
      at computed
    have evaluated : MpcSGenerator.calculateResult twoNodeConfig (createSGenerator .mpcPrivateShare)
        [(2, schnorrSign 3 4 (twoNodeAck.mpcS - 2)), (1, schnorrSign 2 3 (twoNodeAck.mpcS - 2))] =
          .ok { createSGenerator .mpcPrivateShare with result := twoNodeAck.mpcS } := by
      decide +kernel
    have same := computed.symm.trans evaluated
    simpa using same
  subst S_eq
  have stored : twoNodeRun.Stored ⟨1, 1⟩ (Gx, Gy) twoNodeAck.mpcR twoNodeStore :=
    ⟨rfl, by decide +kernel, by decide +kernel, rfl, rfl⟩
  exact verifies (by decide +kernel) ⟨1, 1⟩ (by decide +kernel) twoNodeStore twoNodeAck stored
    rfl rfl (by decide +kernel) (by decide +kernel)

end HonestRun
end SchnorrMpc
