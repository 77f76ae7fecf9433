import SchnorrMpc.Keystore.Store
import SchnorrMpc.Mpc.Context

/-!
# The distributor of a node

Peer lists on the wire, the accounts whose shares have been loaded, and the
key file that ends a key generation.
-/
namespace SchnorrMpc

open Lib

/-- A share that has been loaded from its key file. -/
structure MpcAccount where
  address : Address
  privateShare : Int
  peers : List PeerInfo
  externString : Bytes
  deriving DecidableEq, Repr

/-- `mpcMap` holds the ids of the running contexts. -/
structure MpcDistributor where
  self : NodeID
  storeManGroup : List NodeID
  storeManIndex : Assoc NodeID UInt8
  mpcMap : List Nat
  keyStore : KeyStore
  mpcAccountMap : Assoc Address MpcAccount
  enableAwsKms : Bool
  password : Bytes
  deriving DecidableEq, Repr

namespace MpcDistributor

/-- The group in byte order, each member indexed by its place modulo 256. -/
def initStoreManGroup (srv : MpcDistributor) : MpcDistributor :=
  let group := srv.storeManGroup.mergeSort (fun p q => decide (p ≤ q))
  { srv with
    storeManGroup := group
    storeManIndex := group.zipIdx.foldl (fun index entry =>
      Assoc.assign index entry.1 (UInt8.ofNat entry.2)) [] }

/-! ### Peer lists on the wire -/

/-- Four bytes for each peer: its index, zero for an unknown one, and three bytes of seed. -/
def setMessagePeers (srv : MpcDistributor) (peers : List PeerInfo) : Bytes :=
  peers.flatMap (fun peer =>
    (srv.storeManIndex.lookup peer.peerID).getD 0 :: (bePad 8 peer.seed).drop 5)

/-- An index outside of the group leaves its entry zero. -/
def decodePeer (group : List NodeID) (index : UInt8) (seed : Bytes) : PeerInfo :=
  match group[index.toNat]? with
  | some peerID => ⟨peerID, beNat seed⟩
  | none => ⟨0, 0⟩

def decodePeers (group : List NodeID) : Bytes → List PeerInfo
  | index :: a :: b :: c :: rest => decodePeer group index [a, b, c] :: decodePeers group rest
  | _ => []

/-- Without a list of whole entries the result is nil. -/
def getMessagePeers (srv : MpcDistributor) (peers : Bytes) : Option (List PeerInfo) :=
  if peers.length = 0 ∨ peers.length % 4 ≠ 0 then none
  else some (decodePeers srv.storeManGroup peers)

/-! ### Loading a share -/

def getPrivateShare (kenv : KeyEnv) (srv : MpcDistributor) (address : Address)
    (reload : Option (List Bytes)) : Go (Key × KeyStore) := do
  let (account, keyStore) ← srv.keyStore.find kenv address reload
  match keyStore.files.lookup account.path with
  | none => .err (.new (utf8 "open " ++ account.path ++ utf8 ": no such file or directory"))
  | some content => do
    let keyjson ← if srv.enableAwsKms then kenv.decryptFileToBuffer content else .ok content
    let key ← decryptKey kenv keyjson srv.password
    pure (key, keyStore)

/-- The seeds of the group, read back three bytes at a time into one buffer. What a slice at the
end of the field does not overwrite stays from the round before. -/
def unpackSeeds (wAddress : Bytes) : List NodeID → Nat → Bytes → Go (List PeerInfo)
  | [], _, _ => .ok []
  | peerID :: rest, i, b =>
    if wAddress.length < i * 3 then .panic
    else do
      let b ← copyAt b 5 (wAddress.drop (i * 3))
      let peers ← unpackSeeds wAddress rest (i + 1) b
      pure (⟨peerID, beNat b⟩ :: peers)

/-- The account from the map, or from its key file. -/
def loadAccount (kenv : KeyEnv) (srv : MpcDistributor) (address : Address)
    (reload : Option (List Bytes)) : Go (MpcAccount × MpcDistributor) :=
  match srv.mpcAccountMap.lookup address with
  | some value => .ok (value, srv)
  | none => do
    let (key, keyStore) ← srv.getPrivateShare kenv address reload
    let peers ← unpackSeeds key.wAddress srv.storeManGroup 0 (List.replicate 8 0)
    let value : MpcAccount := ⟨address, key.privateKey.d, peers, key.exten⟩
    pure (value, { srv with
      keyStore, mpcAccountMap := Assoc.assign srv.mpcAccountMap address value })

/-- What a loaded account hands to a context: the share, the group key and the peer table. -/
structure Loaded where
  privateShare : Int
  gpk : Int × Int
  peers : List PeerInfo
  deriving DecidableEq, Repr

def Loaded.shareValue (loaded : Loaded) : MpcValue :=
  ⟨.mpcPrivateShare, some [loaded.privateShare], none⟩

def Loaded.gpkValue (loaded : Loaded) : MpcValue :=
  ⟨.publicKeyResult, some [loaded.gpk.1, loaded.gpk.2], none⟩

/-- The error of decoding the group key is not looked at, so that the bytes before it count, and a
nil key is dereferenced. -/
def loadStoremanAddress (kenv : KeyEnv) (srv : MpcDistributor) (address : Address)
    (reload : Option (List Bytes)) : Go (Loaded × MpcDistributor) := do
  let (value, srv) ← srv.loadAccount kenv address reload
  match toECDSAPub (hexDecodeString value.externString).1 with
  | none => .panic
  | some gpk => pure (⟨value.privateShare, gpk, value.peers⟩, srv)

/-! ### The key file of a new group key -/

/-- `CreateKeystore`: the share and the seeds go to a key file, then the encoded key becomes the
result of the context. -/
def createKeystore (kenv : KeyEnv) (srv : MpcDistributor) (store : BaseMpcResult)
    (peers : List PeerInfo) (draw : KeyStore.KeyDraw) : Go (BaseMpcResult × MpcDistributor) := do
  let point ← store.getValue .publicKeyResult
  let privateShare ← store.getValue .mpcPrivateShare
  let x ← Outcome.index point 0
  let y ← Outcome.index point 1
  let result1 : Int × Int := (x.natAbs, y.natAbs)
  let seed := peers.map PeerInfo.seed
  let share ← Outcome.index privateShare 0
  let keyStore ← srv.keyStore.newStoremanAccount kenv result1 share seed srv.password draw
  let encoded ← fromECDSAPub (some result1)
  pure (store.setByteValue .mpcContextResult encoded, { srv with keyStore })

/-- What `CreateKeystore` has done when it returns without an error. -/
theorem createKeystore_eq_ok {kenv : KeyEnv} {srv srv' : MpcDistributor}
    {store store' : BaseMpcResult} {peers : List PeerInfo} {draw : KeyStore.KeyDraw}
    (created : srv.createKeystore kenv store peers draw = .ok (store', srv')) :
    ∃ point privateShare x y share keyStore encoded,
      store.result .publicKeyResult = some point ∧ point[0]? = some x ∧ point[1]? = some y ∧
      store.result .mpcPrivateShare = some privateShare ∧ privateShare[0]? = some share ∧
      srv.keyStore.newStoremanAccount kenv (x.natAbs, y.natAbs) share (peers.map PeerInfo.seed)
        srv.password draw = .ok keyStore ∧
      fromECDSAPub (some ((x.natAbs : Int), (y.natAbs : Int))) = .ok encoded ∧
      store' = store.setByteValue .mpcContextResult encoded ∧ srv' = { srv with keyStore } := by
  simp only [createKeystore, Outcome.bind_eq_ok_iff, Outcome.index_eq_ok_iff,
    BaseMpcResult.getValue_eq_ok_iff] at created
  obtain ⟨point, isPoint, privateShare, isShare, x, isX, y, isY, share, first, keyStore, written,
    encoded, encodes, built⟩ := created
  cases built
  exact ⟨point, privateShare, x, y, share, keyStore, encoded, isPoint, isX, isY, isShare, first,
    written, encodes, rfl, rfl⟩

end MpcDistributor
end SchnorrMpc
