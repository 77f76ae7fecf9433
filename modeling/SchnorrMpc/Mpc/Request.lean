import SchnorrMpc.Mpc.Distributor
import SchnorrMpc.Validator.Validator

/-!
# Requests for a context

How a node answers the request of a leader, and how it starts a context as a
leader itself. The answer to a request is a program, because it waits for the
operator's approval while other calls use the same database and the same maps.
-/
namespace SchnorrMpc

open Lib

/-- All functions of other packages that a node uses. -/
structure NodeEnv extends KeyEnv, ValEnv

/-- What answering a request calls: the map of contexts, the loaded accounts, the database. -/
inductive NodeOp where
  | contextExists (contextID : Nat)
  | loadStoremanAddress (address : Address)
  | db (op : DbOp)
  deriving DecidableEq, Repr

abbrev NodeAns : NodeOp → Type
  | .contextExists _ => Bool
  | .loadStoremanAddress _ => Go MpcDistributor.Loaded
  | .db op => DbAns op

abbrev NodeM (α : Type) := Prog NodeAns Err α

namespace NodeM

/-- A program over the database as a program of the node. -/
def embed {α : Type} : DbM α → NodeM α
  | .done result => .done result
  | .call op next => .call (NodeOp.db op) (fun answer => embed (next answer))

def contextExists (contextID : Nat) : NodeM Bool :=
  Prog.perform (NodeOp.contextExists contextID)

def loadStoremanAddress (address : Address) : NodeM (Go MpcDistributor.Loaded) :=
  Prog.perform (NodeOp.loadStoremanAddress address)

section Calls

variable {α β : Type}

@[simp] theorem contextExists_bind (contextID : Nat) (f : Bool → NodeM α) :
    (contextExists contextID >>= f) = .call (.contextExists contextID) f := rfl

@[simp] theorem loadStoremanAddress_bind (address : Address)
    (f : Go MpcDistributor.Loaded → NodeM α) :
    (loadStoremanAddress address >>= f) = .call (.loadStoremanAddress address) f := rfl

@[simp] theorem embed_done (result : Go α) : embed (.done result) = .done result := rfl

@[simp] theorem embed_call (op : DbOp) (next : DbAns op → DbM α) :
    embed (.call op next) = .call (NodeOp.db op) (fun answer => embed (next answer)) := rfl

end Calls

end NodeM

/-- `big.Int.Int64`: the low 64 bits of the absolute value, with the sign. -/
def int64 (z : Int) : Int :=
  if z < 0 then (-BitVec.ofNat 64 z.natAbs).toInt else (BitVec.ofNat 64 z.natAbs).toInt

/-- The arguments of a call of `CreateContext`. -/
structure ContextCall where
  ctxType : CtxType
  mpcID : Nat
  peers : List PeerInfo
  preSetValue : List MpcValue
  deriving DecidableEq, Repr

/-- A nil peer list is dereferenced. -/
def derefPeers (srv : MpcDistributor) (msg : MpcMessage) : Go (List PeerInfo) :=
  match srv.getMessagePeers msg.peers with
  | some peers => .ok peers
  | none => .panic

/-- The values a signing follower presets: what it was asked for and what it has loaded. -/
def signPreSet (address mpcM mpcExt : Bytes) (loaded : MpcDistributor.Loaded) : List MpcValue :=
  [⟨.mpcAddress, none, some address⟩, ⟨.mpcM, none, some mpcM⟩, ⟨.mpcExt, none, some mpcExt⟩,
    loaded.shareValue, loaded.gpkValue]

/-- The data is put on the list of requests if the leader asks for that, and must be approved
before the time is over. -/
def awaitApproval (venv : ValEnv) (srv : MpcDistributor) (msg : MpcMessage)
    (receivedData : SendData) (nByApprove : Int) (polls : Nat) : DbM Unit := do
  if nByApprove ≠ 0 then
    match ← (addApprovingData venv receivedData).attempt with
    | .ok () => pure ()
    | .error _ => do
      let _ ← .done (derefPeers srv msg)
      .done (.err .errFailedAddApproving)
  match ← (validateData venv receivedData polls).attempt with
  | .ok () => pure ()
  | .error error => do
    let _ ← .done (derefPeers srv msg)
    .done (.err error)

/-- `createMpcCtx` up to its call of `CreateContext`. The table of the loaded account is not
used; the peers are those of the message. -/
def prepareMpcCtx (venv : ValEnv) (srv : MpcDistributor) (msg : MpcMessage) (polls : Nat) :
    NodeM ContextCall := do
  if ← NodeM.contextExists msg.contextID then .done (.err .errMpcContextExist)
  else do
    let nType ← .done (Outcome.index msg.data 0)
    let nByApprove ← .done (Outcome.index msg.data 1)
    if int64 nType = CtxType.mpcGPKLeader.code then do
      let peers ← .done (derefPeers srv msg)
      pure ⟨.mpcGPKPeer, msg.contextID, peers, []⟩
    else do
      let mpcM ← .done (Outcome.index msg.bytesData 0)
      let address ← .done (Outcome.index msg.bytesData 1)
      let mpcExt ← .done (Outcome.index msg.bytesData 2)
      let add ← .done (pkToAddress venv.toEnv address)
      let loaded ← .done (← NodeM.loadStoremanAddress add)
      NodeM.embed (awaitApproval venv srv msg ⟨address, mpcM, mpcExt⟩ (int64 nByApprove) polls)
      let peers ← .done (derefPeers srv msg)
      pure ⟨.mpcSignPeer, msg.contextID, peers, signPreSet address mpcM mpcExt loaded⟩

/-- The context that is registered and run when the request is accepted. -/
def createMpcCtx (venv : ValEnv) (cfg : Config) (srv : MpcDistributor) (msg : MpcMessage)
    (polls : Nat) : NodeM MpcContext := do
  let call ← prepareMpcCtx venv srv msg polls
  .done (createContext cfg call.ctxType call.mpcID call.peers call.preSetValue)

/-! ### What answers the calls -/

/-- The map of contexts and the database belong to all calls of the node, so here their answers
are whatever the others have left; the accounts are loaded as the distributor loads them. -/
inductive RequestStep (kenv : KeyEnv) :
    MpcDistributor → (op : NodeOp) → NodeAns op → MpcDistributor → Prop where
  | contextExists (srv : MpcDistributor) (contextID : Nat) (exist : Bool) :
      RequestStep kenv srv (.contextExists contextID) exist srv
  | db (srv : MpcDistributor) (op : DbOp) (answer : DbAns op) :
      RequestStep kenv srv (.db op) answer srv
  | loaded {srv after : MpcDistributor} {address : Address} {reload : Option (List Bytes)}
      {loaded : MpcDistributor.Loaded} :
      srv.loadStoremanAddress kenv address reload = .ok (loaded, after) →
      RequestStep kenv srv (.loadStoremanAddress address) (.ok loaded) after
  | refused {srv : MpcDistributor} {address : Address} {reload : Option (List Bytes)}
      {error : Err} : srv.loadStoremanAddress kenv address reload = .err error →
      RequestStep kenv srv (.loadStoremanAddress address) (.err error) srv
  | crashed {srv : MpcDistributor} {address : Address} {reload : Option (List Bytes)} :
      srv.loadStoremanAddress kenv address reload = .panic →
      RequestStep kenv srv (.loadStoremanAddress address) .panic srv

/-- The request is accepted: it ends with a context, which leaves the distributor in `after`. -/
def Accepts (env : NodeEnv) (cfg : Config) (srv : MpcDistributor) (msg : MpcMessage)
    (ctx : MpcContext) (after : MpcDistributor) : Prop :=
  ∃ polls, Prog.Exec (RequestStep env.toKeyEnv) (createMpcCtx env.toValEnv cfg srv msg polls) srv
    (some (.ok ctx)) after

/-! ### The calls of a node -/

/-- What reaches a node: a message of a leader, or the operator's calls. -/
inductive NodeCall where
  | requestMPC (srv : MpcDistributor) (msg : MpcMessage) (polls : Nat)
  | addValidData (data : SendData)
  | approveData (data : List SendData)
  | getDataForApprove

inductive NodeReply where
  /-- The request has come to its call of `CreateContext`. -/
  | context (call : ContextCall)
  | added
  | approved (errors : List (Except Err Unit))
  | waiting (data : List SendData)

def NodeCall.program (venv : ValEnv) : NodeCall → NodeM NodeReply
  | requestMPC srv msg polls => do
    let call ← prepareMpcCtx venv srv msg polls
    pure (.context call)
  | addValidData data => do
    NodeM.embed (addOneValidData venv data)
    pure .added
  | approveData data => do
    let errors ← NodeM.embed (SchnorrMpc.approveData venv data)
    pure (.approved errors)
  | getDataForApprove => do
    let data ← NodeM.embed (SchnorrMpc.getDataForApprove venv)
    pure (.waiting data)

/-- The calls of a node share the database. The map of contexts and the accounts may answer
anything here. -/
inductive NodeStep : Db → (op : NodeOp) → NodeAns op → Db → Prop where
  | contextExists (db : Db) (contextID : Nat) (exist : Bool) :
      NodeStep db (.contextExists contextID) exist db
  | loadStoremanAddress (db : Db) (address : Address) (answer : Go MpcDistributor.Loaded) :
      NodeStep db (.loadStoremanAddress address) answer db
  | db {db after : Db} {op : DbOp} {answer : DbAns op} :
      Db.Step db op answer after → NodeStep db (.db op) answer after

/-! ### Contexts of a leader -/

/-- `createRequestMpcContext` up to the run of the context, for a signing: the peers are those
the key was shared among. The data and its extension are nil when the call does not have them. -/
def createReqMpcSign (kenv : KeyEnv) (cfg : Config) (srv : MpcDistributor) (mpcID : Nat)
    (data ext : Option Bytes) (pkBytes : Bytes) (byApprove : Int)
    (reload : Option (List Bytes)) :
    Go (MpcContext × MpcDistributor) := do
  let address ← pkToAddress kenv.toEnv pkBytes
  let (loaded, srv) ← srv.loadStoremanAddress kenv address reload
  let ctx ← createContext cfg .mpcSignLeader mpcID loaded.peers
    [⟨.mpcAddress, none, some pkBytes⟩, ⟨.mpcM, none, data⟩, ⟨.mpcExt, none, ext⟩,
      ⟨.mpcByApprove, some [byApprove], none⟩, loaded.shareValue, loaded.gpkValue]
  pure (ctx, srv)

/-- The same for a key generation: the whole group, with seeds still to be drawn. -/
def createRequestGPK (cfg : Config) (srv : MpcDistributor) (mpcID : Nat) : Go MpcContext :=
  createContext cfg .mpcGPKLeader mpcID (srv.storeManGroup.map (fun peerID => ⟨peerID, 0⟩)) []

/-! ### Signatures for the operator

What the API returns of a signing: the bytes that the context has left, cut in
two. The two calls differ only in whether the followers ask their operators.
-/

structure SignedResult where
  r : Bytes
  s : Bytes
  deriving DecidableEq, Repr

/-- `signed[0:65]` and `signed[65:]`. -/
def splitSigned (signed : Bytes) : Go SignedResult :=
  if signed.length < 65 then .panic else .ok ⟨signed.take 65, signed.drop 65⟩

/-- The call for enough connected storemen; `createReqMpcSign` is what the context returns. -/
def signWith (cfg : Config) (storemanPeers : Nat) (byApprove : Int)
    (createReqMpcSign : Int → Go Bytes) : Go SignedResult :=
  if (storemanPeers : Int) + 1 < cfg.mpcSchnrThr then .err .errTooLessStoreman
  else do
    let signed ← createReqMpcSign byApprove
    splitSigned signed

def signDataByApprove (cfg : Config) (storemanPeers : Nat) (createReqMpcSign : Int → Go Bytes) :
    Go SignedResult :=
  signWith cfg storemanPeers 1 createReqMpcSign

def signData (cfg : Config) (storemanPeers : Nat) (createReqMpcSign : Int → Go Bytes) :
    Go SignedResult :=
  signWith cfg storemanPeers 0 createReqMpcSign

end SchnorrMpc
