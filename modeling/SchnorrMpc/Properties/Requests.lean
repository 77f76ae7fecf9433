import SchnorrMpc.Crypto.Reference
import SchnorrMpc.Mpc.Request
import SchnorrMpc.Schnorr.Recovery

/-!
# Peer tables of accepted requests

A follower takes the peers of a context from the request of the leader. What
it accepts as a table for key generation, and how the table of a signing
compares with the one in its own key file.
-/
namespace SchnorrMpc

open Lib S256

variable {kenv : KeyEnv} {srv after : MpcDistributor} {env : NodeEnv} {cfg : Config}
  {msg : MpcMessage} {ctx : MpcContext} {nType x : Int} {rest : List Int} {k : Nat}
  {peers decoded : List PeerInfo}

/-! ### Inversion of an accepted request -/

theorem exec_embed {α : Type} {q : DbM α} {result : Option (Go α)}
    (exec : Prog.Exec (RequestStep kenv) (NodeM.embed q) srv result after) : after = srv := by
  induction q generalizing srv with
  | done outcome => cases exec <;> rfl
  | call op next ih =>
    cases exec with
    | cut => rfl
    | call taken rest =>
      cases taken
      exact ih _ rest

private theorem derefPeers_eq_ok_iff (srv : MpcDistributor) (msg : MpcMessage)
    (peers : List PeerInfo) :
    derefPeers srv msg = .ok peers ↔ srv.getMessagePeers msg.peers = some peers := by
  unfold derefPeers
  cases srv.getMessagePeers msg.peers <;> simp

/-- An accepted request for a key generation went through the check of the seeds. -/
theorem accepts_gpk (isGPK : int64 nType = 0) (typed : msg.data = nType :: rest)
    (accepted : Accepts env cfg srv msg ctx after) :
    ∃ peers, srv.getMessagePeers msg.peers = some peers ∧ checkSeeds peers [] = .ok () ∧
      ctx.peers = peers := by
  obtain ⟨polls, exec⟩ := accepted
  obtain ⟨call, mid, prepared, created⟩ := Prog.exec_bind_ok exec
  obtain ⟨created, -⟩ := Prog.exec_done_iff.mp created
  simp only [prepareMpcCtx, NodeM.contextExists_bind, Prog.exec_call_iff] at prepared
  obtain ⟨exist, srv', -, prepared⟩ := prepared
  cases exist with
  | true =>
    simp only [if_true] at prepared
    cases prepared
  | false =>
    simp only [Bool.false_eq_true, if_false, Prog.exec_done_bind_iff, typed,
      Outcome.index_cons_zero, Outcome.ok.injEq, exists_eq_left'] at prepared
    obtain ⟨nByApprove, -, prepared⟩ := prepared
    rw [if_pos (by simpa [CtxType.code] using isGPK), Prog.exec_done_bind_iff] at prepared
    obtain ⟨peers, deref, prepared⟩ := prepared
    obtain ⟨called, -⟩ := Prog.exec_done_iff.mp prepared
    cases called
    refine ⟨peers, (derefPeers_eq_ok_iff srv msg peers).mp deref, ?_,
      createContext_peers created.symm⟩
    simp only [createContext, List.any_nil, Bool.false_eq_true, if_false, ackGPKMpc] at created
    rw [eq_comm, Outcome.bind_eq_ok_iff] at created
    obtain ⟨_, checked, -⟩ := created
    exact checked

/-! ### Points of evaluation for key generation -/

/-- A value that every polynomial takes at `x` because of `x`: its constant term. -/
def RevealsConstant (degree x : Int) : Prop :=
  ∀ f : Polynomial, (f.length : Int) = degree + 1 → evaluatePoly f x degree = .ok (f.getD 0 0 % N)

/-- Points at which a node can evaluate its secret polynomial for the group. -/
structure SafePoints (cfg : Config) (group : List NodeID) (peers : List PeerInfo) : Prop where
  members : ∀ peer ∈ peers, peer.peerID ∈ group
  distinct : (peers.map fun peer => (peer.seed : ZMod N)).Nodup
  nonzero : ∀ peer ∈ peers, (peer.seed : ZMod N) ≠ 0
  hidden : 1 ≤ cfg.mpcDegree → ∀ peer ∈ peers, ¬RevealsConstant cfg.mpcDegree peer.seed

/-- Every entry of a list of peers on the wire has an index inside of the group and a seed that is
not made of zero bytes. -/
def KnownNonzero (group : List NodeID) : Bytes → Prop
  | index :: a :: b :: c :: rest =>
    index.toNat < group.length ∧ ¬(a = 0 ∧ b = 0 ∧ c = 0) ∧ KnownNonzero group rest
  | _ => True

theorem beNat_three (a b c : UInt8) :
    beNat [a, b, c] = a.toNat * 65536 + b.toNat * 256 + c.toNat := by
  simp only [beNat, List.foldl_cons, List.foldl_nil]
  omega

private theorem beNat_three_eq_zero_iff (a b c : UInt8) :
    beNat [a, b, c] = 0 ↔ a = 0 ∧ b = 0 ∧ c = 0 := by
  rw [beNat_three]
  have zero (x : UInt8) : x = 0 ↔ x.toNat = 0 := by
    rw [← UInt8.toNat_inj]; rfl
  rw [zero a, zero b, zero c]
  omega

private theorem decodePeer_good_iff (group : List NodeID) (index a b c : UInt8) :
    ((MpcDistributor.decodePeer group index [a, b, c]).peerID ∈ group ∧
      (MpcDistributor.decodePeer group index [a, b, c]).seed ≠ 0) ↔
    index.toNat < group.length ∧ ¬(a = 0 ∧ b = 0 ∧ c = 0) := by
  unfold MpcDistributor.decodePeer
  by_cases inside : index.toNat < group.length
  · have found : group[index.toNat]? = some (group.get ⟨index.toNat, inside⟩) := by simp [inside]
    rw [found]
    have member : group.get ⟨index.toNat, inside⟩ ∈ group := List.get_mem _ _
    simp only [member, true_and, inside, ne_eq, beNat_three_eq_zero_iff]
  · have missing : group[index.toNat]? = none := by simpa using inside
    rw [missing]
    simp [inside]

theorem decodePeers_good_iff (group : List NodeID) (bytes : Bytes) :
    (∀ peer ∈ MpcDistributor.decodePeers group bytes, peer.peerID ∈ group ∧ peer.seed ≠ 0) ↔
      KnownNonzero group bytes := by
  fun_induction MpcDistributor.decodePeers group bytes with
  | case1 index a b c rest ih =>
    rw [List.forall_mem_cons, decodePeer_good_iff, ih, KnownNonzero]
    tauto
  | case2 bytes short =>
    unfold KnownNonzero
    split
    next index a b c rest => exact absurd rfl (short index a b c rest)
    next => simp

theorem revealsConstant_of_zero (zero : (x : ZMod N) = 0) :
    RevealsConstant ((k + 1 : Nat) - 1 : Int) x := by
  intro f length
  have size : f.length = k + 1 := by omega
  obtain ⟨value, returned, nonneg, small, cast⟩ := evaluatePoly_spec size.ge x
  rw [returned, zero, eval_polyOf_zero _ _ (Nat.succ_pos k)] at *
  have same : (value : ZMod N) = ((f.getD 0 0 : Int) : ZMod N) := cast
  rw [ZMod.intCast_eq_intCast_iff'] at same
  rw [← same, Int.emod_eq_of_lt nonneg small]

/-- At any other point a polynomial of positive degree can take another value. -/
theorem not_revealsConstant (positive : 1 ≤ k) (nonzero : (x : ZMod N) ≠ 0) :
    ¬RevealsConstant ((k + 1 : Nat) - 1 : Int) x := by
  intro reveals
  -- the monomial of degree one has constant term zero and the value `x`
  let f : Polynomial := 0 :: 1 :: List.replicate (k - 1) 0
  have size : f.length = k + 1 := by simp [f]; omega
  obtain ⟨value, returned, -, -, cast⟩ := evaluatePoly_spec size.ge x
  have revealed := reveals f (by omega)
  rw [returned] at revealed
  have zero : value = 0 := by simpa [f] using revealed
  rw [zero, eval_polyOf] at cast
  have single : ∑ i ∈ Finset.range (k + 1), residues f i * (x : ZMod N) ^ i = x := by
    rw [Finset.sum_eq_single 1]
    · simp [residues, f]
    · intro i _ other
      rcases i with _ | _ | i
      · simp [residues, f]
      · exact absurd rfl other
      · have : residues f (i + 2) = 0 := by
          simp only [residues, f, List.getD_cons_succ]
          rcases Nat.lt_or_ge i (k - 1) with inside | outside
          · simp [List.getD_eq_getElem?_getD, inside]
          · simp [List.getD_eq_getElem?_getD, outside]
        rw [this, zero_mul]
    · intro outside
      exact absurd (Finset.mem_range.mpr (by omega)) outside
  rw [single] at cast
  exact nonzero (by simpa using cast.symm)

private theorem seed_cast_eq_zero_iff {seed : Nat} (small : seed ≤ 0xffffff) :
    (seed : ZMod N) = 0 ↔ seed = 0 := by
  have large : 0xffffff < N := by decide
  constructor
  · intro zero
    rw [ZMod.natCast_eq_zero_iff] at zero
    exact Nat.eq_zero_of_dvd_of_lt zero (by omega)
  · rintro rfl
    exact Nat.cast_zero

private theorem nodup_seeds_cast (small : ∀ peer ∈ peers, peer.seed ≤ 0xffffff)
    (distinct : (peers.map PeerInfo.seed).Nodup) :
    (peers.map fun peer => (peer.seed : ZMod N)).Nodup := by
  have large : 0xffffff < N := by decide
  rw [show (fun peer : PeerInfo => (peer.seed : ZMod N)) = (Nat.cast : Nat → ZMod N) ∘ PeerInfo.seed
    from rfl, ← List.map_map]
  refine List.Nodup.map_on ?_ distinct
  intro a aSeed b bSeed same
  obtain ⟨p, pMember, rfl⟩ := List.mem_map.mp aSeed
  obtain ⟨q, qMember, rfl⟩ := List.mem_map.mp bSeed
  have pSmall := small p pMember
  have qSmall := small q qMember
  rw [ZMod.natCast_eq_natCast_iff', Nat.mod_eq_of_lt (by omega), Nat.mod_eq_of_lt (by omega)]
    at same
  exact same

/-- The points of an accepted key generation are safe exactly when every entry of the leader's
list has an index in the group and a seed other than zero: neither is checked. -/
theorem accepted_gpk_safe_iff (env : NodeEnv) (cfg : Config) (srv after : MpcDistributor)
    (msg : MpcMessage) (ctx : MpcContext) (nType : Int) (rest : List Int)
    (typed : msg.data = nType :: rest) (isGPK : int64 nType = CtxType.mpcGPKLeader.code)
    (accepted : Accepts env cfg srv msg ctx after) :
    SafePoints cfg srv.storeManGroup ctx.peers ↔ KnownNonzero srv.storeManGroup msg.peers := by
  obtain ⟨peers, decoded, checked, rfl⟩ := accepts_gpk isGPK typed accepted
  obtain ⟨small, distinct⟩ := (checkSeeds_ok_iff_table _).mp checked
  have wire : ctx.peers = MpcDistributor.decodePeers srv.storeManGroup msg.peers := by
    unfold MpcDistributor.getMessagePeers at decoded
    split at decoded
    · cases decoded
    · exact (Option.some.inj decoded).symm
  rw [← decodePeers_good_iff, ← wire]
  constructor
  · intro safe peer member
    refine ⟨safe.members peer member, fun zero => safe.nonzero peer member ?_⟩
    rw [zero, Nat.cast_zero]
  · intro good
    have nonzero (peer) (member : peer ∈ ctx.peers) : (peer.seed : ZMod N) ≠ 0 := by
      rw [Ne, seed_cast_eq_zero_iff (small peer member)]
      exact (good peer member).2
    refine ⟨fun peer member => (good peer member).1, nodup_seeds_cast small distinct, nonzero, ?_⟩
    intro positive peer member
    obtain ⟨k, degree⟩ : ∃ k : Nat, cfg.mpcDegree = ((k + 1 : Nat) - 1 : Int) :=
      ⟨cfg.mpcDegree.toNat, by omega⟩
    rw [degree]
    refine not_revealsConstant (by omega) ?_
    rw [Int.cast_natCast]
    exact nonzero peer member

/-- The encoded base point, which stands for a group key in the examples below. -/
def baseBytes : Bytes := 4 :: (bePad 32 Gx ++ bePad 32 Gy)

/-- The JSON of a request without characters that JSON escapes. -/
def jsonData (data : SendData) : Bytes :=
  utf8 "\x7b\"pk\":\"0x" ++ hexEncode data.pkBytes ++ utf8 "\",\"data\":\"0x" ++ hexEncode data.data
    ++ utf8 "\",\"Extern\":\"" ++ data.ext ++ utf8 "\"\x7d"

/-- The digests and the JSON texts of requests to sign one byte with the base point as key. -/
def sampleEnv : NodeEnv where
  curve := BitCurve.curve Reference.ecmult
  sha256 _ := word 0
  keccak256 bytes :=
    if bytes = baseBytes.drop 1 then
      word 0xc0a6c424ac7157ae408398df7e5f4552091a69125d5dfcb7b8c2659029395bdf
    else if bytes = baseBytes ++ [1] ++ utf8 "MpcApproved" then
      word 0xbc7a083336174a0e2977b0a7901b1a64d0f6be7d1a8b55d5a222be78b77c3fc9
    else word 0xb2e6bc696b3df3b5bb48d7d31c56153728584b986dbdfe91b40e9ce38684abfe
  scrypt _ _ _ _ _ _ := .panic
  pbkdf2 _ _ := .panic
  aesCTRXOR _ _ _ := .panic
  marshalKey _ := .panic
  unmarshalKey _ := .panic
  keyVersion _ := .panic
  unmarshalAddress _ := none
  decryptKeyV1 _ _ := .panic
  decryptFileToBuffer _ := .panic
  marshalData := jsonData
  unmarshalData _ := .error (.new [])
  marshalKeys _ := []
  unmarshalKeys _ := .error (.new [])

def idleServer : MpcDistributor where
  self := 2
  storeManGroup := [1, 2]
  storeManIndex := [(1, 0), (2, 1)]
  mpcMap := []
  keyStore := ⟨utf8 "/keystore", 4096, 6, [], [], []⟩
  mpcAccountMap := []
  enableAwsKms := false
  password := utf8 "secret"

def plainRequest : MpcMessage := ⟨7, 0, [0, 0, 0, 5, 1, 0, 0, 6], [0, 0], []⟩

theorem accepted_gpk_safe_iff_plainRequest :
    ∃ ctx, Accepts sampleEnv ⟨2, 2⟩ idleServer plainRequest ctx idleServer ∧
      SafePoints ⟨2, 2⟩ idleServer.storeManGroup ctx.peers := by
  refine ⟨_, ⟨0, .call (.contextExists _ _ false) (.done _ _)⟩, ?_⟩
  refine (accepted_gpk_safe_iff sampleEnv ⟨2, 2⟩ idleServer idleServer plainRequest _ 0 [0] rfl
    (by decide) ⟨0, .call (.contextExists _ _ false) (.done _ _)⟩).mpr ?_
  simp [KnownNonzero, plainRequest, idleServer]

def zeroSeedRequest : MpcMessage := ⟨7, 0, [0, 0, 0, 0, 1, 0, 0, 1], [0, 0], []⟩

theorem zeroSeedRequest_accepted :
    ∃ ctx, Accepts sampleEnv ⟨2, 2⟩ idleServer zeroSeedRequest ctx idleServer ∧
      (∃ peer ∈ ctx.peers, peer.seed = 0 ∧ RevealsConstant 1 peer.seed) ∧
      ¬SafePoints ⟨2, 2⟩ idleServer.storeManGroup ctx.peers := by
  refine ⟨_, ⟨0, .call (.contextExists _ _ false) (.done _ _)⟩, ?_, ?_⟩
  · refine ⟨⟨1, 0⟩, List.mem_cons_self, rfl, ?_⟩
    exact revealsConstant_of_zero (k := 1) rfl
  · intro safe
    exact safe.nonzero ⟨1, 0⟩ List.mem_cons_self Nat.cast_zero

/-! ### The table of a signing -/

/-- An accepted request for a signing has loaded the account of its key, and takes the peers of
the message. -/
theorem accepts_sign (typed : msg.data = nType :: rest)
    (isSign : int64 nType ≠ CtxType.mpcGPKLeader.code)
    (accepted : Accepts env cfg srv msg ctx after) :
    ∃ address add reload loaded, msg.bytesData[1]? = some address ∧
      pkToAddress env.toEnv address = .ok add ∧
      srv.loadStoremanAddress env.toKeyEnv add reload = .ok (loaded, after) ∧
      srv.getMessagePeers msg.peers = some ctx.peers := by
  obtain ⟨polls, exec⟩ := accepted
  obtain ⟨call, mid, prepared, created⟩ := Prog.exec_bind_ok exec
  obtain ⟨made, same⟩ := Prog.exec_done_iff.mp created
  subst same
  simp only [prepareMpcCtx, NodeM.contextExists_bind, Prog.exec_call_iff] at prepared
  obtain ⟨exist, srv', looked, prepared⟩ := prepared
  cases looked
  cases exist with
  -- a context of this id refuses the request
  | true =>
    simp only [if_true] at prepared
    cases prepared
  | false =>
    simp only [Bool.false_eq_true, if_false, Prog.exec_done_bind_iff, typed,
      Outcome.index_cons_zero, Outcome.ok.injEq, exists_eq_left'] at prepared
    obtain ⟨nByApprove, -, prepared⟩ := prepared
    rw [if_neg isSign] at prepared
    simp only [Prog.exec_done_bind_iff, NodeM.loadStoremanAddress_bind,
      Prog.exec_call_iff] at prepared
    obtain ⟨mpcM, -, address, requested, mpcExt, -, add, toAddress, answer, srv', load, loaded, rfl,
      prepared⟩ := prepared
    -- the wait leaves the server as it is
    obtain ⟨_, srv'', waited, resumed⟩ := Prog.exec_bind_ok prepared
    obtain rfl := exec_embed waited
    obtain ⟨peers, deref, called⟩ := Prog.exec_done_bind_iff.mp resumed
    obtain ⟨called, rfl⟩ := Prog.exec_done_iff.mp called
    cases called
    cases load with
    | loaded found =>
      refine ⟨address, add, _, loaded, (Outcome.index_eq_ok_iff _ _ _).mp requested, toAddress,
        found, ?_⟩
      rw [createContext_peers made.symm]
      exact (derefPeers_eq_ok_iff srv msg peers).mp deref

theorem loadStoremanAddress_again {address : Address} {reload : Option (List Bytes)}
    {loaded : MpcDistributor.Loaded}
    (first : srv.loadStoremanAddress kenv address reload = .ok (loaded, after))
    (again : Option (List Bytes)) :
    after.loadStoremanAddress kenv address again = .ok (loaded, after) := by
  rw [MpcDistributor.loadStoremanAddress, Outcome.bind_eq_ok_iff] at first ⊢
  obtain ⟨⟨value, srv'⟩, account, decoded⟩ := first
  have cached : srv'.mpcAccountMap.lookup address = some value := by
    unfold MpcDistributor.loadAccount at account
    split at account
    next found => cases account; exact found
    next missing =>
      simp only [Outcome.bind_eq_ok_iff] at account
      obtain ⟨⟨key, keyStore⟩, -, peers, -, built⟩ := account
      cases built
      dsimp only
      rw [Assoc.lookup_assign, if_pos rfl]
  have final : srv' = after := by
    dsimp only at decoded
    split at decoded
    · cases decoded
    · cases decoded; rfl
  subst final
  exact ⟨(value, srv'), by rw [MpcDistributor.loadAccount, cached], decoded⟩

/-- The entries of a list on the wire name the members of a table, with its seeds. -/
def NamesTable (group : List NodeID) : Bytes → List PeerInfo → Prop
  | index :: a :: b :: c :: rest, peer :: peers =>
    group[index.toNat]? = some peer.peerID ∧ beNat [a, b, c] = peer.seed ∧
      NamesTable group rest peers
  | [], [] => True
  | _, _ => False

/-- A table of distinct points other than zero. -/
def GoodSeeds (peers : List PeerInfo) : Prop :=
  (∀ peer ∈ peers, peer.seed ≠ 0) ∧ (peers.map PeerInfo.seed).Nodup

theorem decodePeers_eq_iff_namesTable (group : List NodeID) {bytes : Bytes}
    (whole : bytes.length % 4 = 0) (nonzero : ∀ peer ∈ peers, peer.seed ≠ 0) :
    MpcDistributor.decodePeers group bytes = peers ↔ NamesTable group bytes peers := by
  fun_induction NamesTable group bytes peers with
  | case1 index a b c rest peer peers ih =>
    rw [List.forall_mem_cons] at nonzero
    simp only [List.length_cons] at whole
    rw [MpcDistributor.decodePeers, List.cons.injEq, ih (by omega) nonzero.2]
    have head : MpcDistributor.decodePeer group index [a, b, c] = peer ↔
        group[index.toNat]? = some peer.peerID ∧ beNat [a, b, c] = peer.seed := by
      unfold MpcDistributor.decodePeer
      cases found : group[index.toNat]? with
      | some peerID =>
        obtain ⟨otherID, seed⟩ := peer
        simp
      | none =>
        constructor
        · rintro rfl
          exact absurd rfl nonzero.1
        · rintro ⟨missing, -⟩
          cases missing
    rw [head, and_assoc]
  | case2 => simp [MpcDistributor.decodePeers]
  | case3 bytes peers notBoth notEmpty =>
    refine iff_of_false ?_ (fun impossible => impossible)
    intro decoded
    match bytes, peers with
    | [], [] => exact notEmpty rfl rfl
    | [], _ :: _ => cases decoded
    | [_], _ => simp at whole
    | [_, _], _ => simp at whole
    | [_, _, _], _ => simp at whole
    | _ :: _ :: _ :: _ :: _, [] => cases decoded
    | index :: a :: b :: c :: rest, peer :: peers =>
      exact notBoth index a b c rest peer peers rfl rfl

/-- The table of an accepted signing is the one of the key file exactly when the bytes of the
message name it: nothing compares the two. -/
theorem accepted_sign_table_iff (env : NodeEnv) (cfg : Config) (srv after : MpcDistributor)
    (msg : MpcMessage) (ctx : MpcContext) (nType : Int) (rest : List Int)
    (typed : msg.data = nType :: rest) (isSign : int64 nType ≠ CtxType.mpcGPKLeader.code)
    (accepted : Accepts env cfg srv msg ctx after) :
    ∃ address add loaded, msg.bytesData[1]? = some address ∧
      pkToAddress env.toEnv address = .ok add ∧
      (∀ reload, after.loadStoremanAddress env.toKeyEnv add reload = .ok (loaded, after)) ∧
      ((ctx.peers = loaded.peers ∧ GoodSeeds ctx.peers) ↔
        (NamesTable srv.storeManGroup msg.peers loaded.peers ∧ GoodSeeds loaded.peers)) := by
  obtain ⟨address, add, reload, loaded, requested, toAddress, found, decoded⟩ :=
    accepts_sign typed isSign accepted
  refine ⟨address, add, loaded, requested, toAddress, loadStoremanAddress_again found, ?_⟩
  unfold MpcDistributor.getMessagePeers at decoded
  split at decoded
  next => cases decoded
  next whole =>
    have wire := Option.some.inj decoded
    have fourth : msg.peers.length % 4 = 0 := by omega
    constructor
    · rintro ⟨same, good⟩
      rw [same] at good
      refine ⟨?_, good⟩
      rw [← decodePeers_eq_iff_namesTable _ fourth good.1, wire, same]
    · rintro ⟨names, good⟩
      have same : ctx.peers = loaded.peers := by
        rw [← wire, decodePeers_eq_iff_namesTable _ fourth good.1]
        exact names
      exact ⟨same, by rw [same]; exact good⟩

/-- A node whose share for the base point was dealt at the points 5 and 6. -/
def keyedServer : MpcDistributor :=
  { idleServer with
    mpcAccountMap := [(bePad 20 0x7e5f4552091a69125d5dfcb7b8c2659029395bdf,
      ⟨bePad 20 0x7e5f4552091a69125d5dfcb7b8c2659029395bdf, 1, [⟨1, 5⟩, ⟨2, 6⟩],
        hexEncode baseBytes⟩)] }

private theorem pkToAddress_baseBytes :
    pkToAddress sampleEnv.toEnv baseBytes =
      .ok (bePad 20 0x7e5f4552091a69125d5dfcb7b8c2659029395bdf) := by
  decide +kernel

private theorem keyedServer_loads :
    keyedServer.loadStoremanAddress sampleEnv.toKeyEnv
        (bePad 20 0x7e5f4552091a69125d5dfcb7b8c2659029395bdf) none =
      .ok (⟨1, (Gx, Gy), [⟨1, 5⟩, ⟨2, 6⟩]⟩, keyedServer) := by
  decide +kernel

def signRequest (peers : Bytes) : MpcMessage :=
  ⟨7, 0, peers, [2, 0], [[1], baseBytes, []]⟩

/-- The peers of the signing whose key file is loaded. -/
def sampleLoaded : MpcDistributor.Loaded := ⟨1, (Gx, Gy), [⟨1, 5⟩, ⟨2, 6⟩]⟩

/-- The request comes to its context when the database answers that the data is approved. -/
theorem signRequest_prepared {σ : Type} {step : σ → (op : NodeOp) → NodeAns op → σ → Prop} {s : σ}
    (noContext : step s (.contextExists 7) false s)
    (load : step s (.loadStoremanAddress (bePad 20 0x7e5f4552091a69125d5dfcb7b8c2659029395bdf))
      (.ok sampleLoaded) s)
    (getDB : step s (.db .getDB) (.ok ()) s)
    (has : step s (.db (.has (buildKeyFromData sampleEnv.toEnv ⟨baseBytes, [1], []⟩ .approved)))
      (.ok true) s)
    (get : step s (.db (.get (buildKeyFromData sampleEnv.toEnv ⟨baseBytes, [1], []⟩ .approved)))
      (.ok (jsonData ⟨baseBytes, [1], []⟩)) s)
    {peers : Bytes} (whole : keyedServer.getMessagePeers peers = some decoded) :
    Prog.Exec step (prepareMpcCtx sampleEnv.toValEnv keyedServer (signRequest peers) 0) s
      (some (.ok ⟨.mpcSignPeer, 7, decoded, signPreSet baseBytes [1] [] sampleLoaded⟩)) s := by
  have deref : derefPeers keyedServer (signRequest peers) = .ok decoded := by
    rw [derefPeers, show (signRequest peers).peers = peers from rfl, whole]
  have waited : Prog.Exec step
      (NodeM.embed (awaitApproval sampleEnv.toValEnv keyedServer (signRequest peers)
        ⟨baseBytes, [1], []⟩ (int64 0) 0)) s (some (.ok ())) s := by
    refine .call getDB (.call getDB (.call has (.call get ?_)))
    have consistent : ¬ jsonData ⟨baseBytes, [1], []⟩ ≠
        sampleEnv.marshalData ⟨baseBytes, [1], []⟩ := fun differs => differs rfl
    simp only [Prog.bind, if_neg consistent]
    exact .done _ _
  rw [prepareMpcCtx, NodeM.contextExists_bind]
  refine .call noContext ?_
  simp only [Bool.false_eq_true, if_false, Prog.exec_done_bind_iff]
  refine ⟨2, rfl, 0, rfl, ?_⟩
  rw [if_neg (by decide)]
  simp only [Prog.exec_done_bind_iff]
  refine ⟨[1], rfl, baseBytes, rfl, [], rfl, _, pkToAddress_baseBytes, ?_⟩
  rw [NodeM.loadStoremanAddress_bind]
  refine .call load (Prog.exec_done_bind_iff.mpr ⟨_, rfl, .bind waited ?_⟩)
  rw [deref]
  exact .done _ _

/-- Then the request is accepted, with any whole list of peers. -/
private theorem signRequest_accepted {peers : Bytes}
    (whole : keyedServer.getMessagePeers peers = some decoded) :
    ∃ ctx, Accepts sampleEnv ⟨2, 2⟩ keyedServer (signRequest peers) ctx keyedServer ∧
      ctx.peers = decoded := by
  obtain ⟨ctx, created⟩ : ∃ ctx, createContext ⟨2, 2⟩ .mpcSignPeer 7 decoded
      (signPreSet baseBytes [1] [] sampleLoaded) = .ok ctx := by
    have filled : (signPreSet baseBytes [1] [] sampleLoaded).any
        (fun item => item.key ≠ .mpcPrivateShare && item.value == some []) = false := by
      simp [signPreSet, MpcDistributor.Loaded.shareValue, MpcDistributor.Loaded.gpkValue]
    simp only [createContext, filled, Bool.false_eq_true, if_false, ackSignMpc, generateTxSignMpc]
    rw [createSkPolyValue_ok (by decide)]
    exact ⟨_, rfl⟩
  have prepared : Prog.Exec (RequestStep sampleEnv.toKeyEnv)
      (prepareMpcCtx sampleEnv.toValEnv keyedServer (signRequest peers) 0) keyedServer
      (some (.ok ⟨.mpcSignPeer, 7, decoded, signPreSet baseBytes [1] [] sampleLoaded⟩))
        keyedServer :=
    signRequest_prepared (.contextExists _ _ false) (.loaded keyedServer_loads) (.db _ _ _)
      (.db _ _ _) (.db _ _ _) whole
  have accepted : Prog.Exec (RequestStep sampleEnv.toKeyEnv)
      (createMpcCtx sampleEnv.toValEnv ⟨2, 2⟩ keyedServer (signRequest peers) 0) keyedServer
      (some (.ok ctx)) keyedServer := by
    refine .bind prepared ?_
    rw [created]
    exact .done _ _
  exact ⟨ctx, ⟨0, accepted⟩, createContext_peers created⟩

/-- The leader names the table of the key file. -/
theorem accepted_sign_table_iff_sameTable :
    ∃ ctx, Accepts sampleEnv ⟨2, 2⟩ keyedServer (signRequest [0, 0, 0, 5, 1, 0, 0, 6]) ctx
        keyedServer ∧
      ∃ loaded, (∀ reload, keyedServer.loadStoremanAddress sampleEnv.toKeyEnv
          (bePad 20 0x7e5f4552091a69125d5dfcb7b8c2659029395bdf) reload =
            .ok (loaded, keyedServer)) ∧
        ctx.peers = loaded.peers := by
  obtain ⟨ctx, accepted, -⟩ := signRequest_accepted
    (show keyedServer.getMessagePeers [0, 0, 0, 5, 1, 0, 0, 6] = some [⟨1, 5⟩, ⟨2, 6⟩] by
      decide +kernel)
  obtain ⟨address, add, loaded, requested, toAddress, loads, same⟩ :=
    accepted_sign_table_iff sampleEnv ⟨2, 2⟩ keyedServer keyedServer _ ctx 2 [0] rfl (by decide)
      accepted
  cases requested
  rw [pkToAddress_baseBytes] at toAddress
  cases toAddress
  refine ⟨ctx, accepted, loaded, loads, ?_⟩
  have table := (loads none).symm.trans keyedServer_loads
  cases table
  refine (same.mpr ⟨?_, ?_, ?_⟩).1
  · simp [NamesTable, signRequest, keyedServer, idleServer, beNat]
  · decide
  · decide

/-- The leader makes the follower share its nonce at zero and at one. -/
theorem signRequest_otherTable :
    ∃ ctx, Accepts sampleEnv ⟨2, 2⟩ keyedServer (signRequest [0, 0, 0, 0, 1, 0, 0, 1]) ctx
        keyedServer ∧
      keyedServer.loadStoremanAddress sampleEnv.toKeyEnv
          (bePad 20 0x7e5f4552091a69125d5dfcb7b8c2659029395bdf) none =
        .ok (⟨1, (Gx, Gy), [⟨1, 5⟩, ⟨2, 6⟩]⟩, keyedServer) ∧
      ctx.peers = [⟨1, 0⟩, ⟨2, 1⟩] := by
  obtain ⟨ctx, accepted, peers⟩ := signRequest_accepted
    (show keyedServer.getMessagePeers [0, 0, 0, 0, 1, 0, 0, 1] = some [⟨1, 0⟩, ⟨2, 1⟩] by
      decide +kernel)
  exact ⟨ctx, accepted, keyedServer_loads, peers⟩

end SchnorrMpc
