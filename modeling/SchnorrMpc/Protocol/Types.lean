import SchnorrMpc.Protocol.Error
import SchnorrMpc.Lib.Assoc
import Mathlib.Logic.Function.Basic

/-!
# Protocol data

Messages, peers, and the store in which the steps of a context leave their
results. A node id is its 64 bytes read as one number, so that byte order and
numeric order agree.
-/
namespace SchnorrMpc

open Lib

abbrev NodeID := BitVec 512

instance : LawfulBEq NodeID := inferInstance

structure PeerInfo where
  peerID : NodeID
  seed : Nat
  deriving DecidableEq, Repr

/-- The two settings of the group that the protocol reads. -/
structure Config where
  mpcSchnrThr : Int
  mpcSchnrNodeNumber : Int
  deriving DecidableEq, Repr

def Config.mpcDegree (cfg : Config) : Int := cfg.mpcSchnrThr - 1

inductive CtxType where
  | mpcGPKLeader
  | mpcGPKPeer
  | mpcSignLeader
  | mpcSignPeer
  deriving DecidableEq, Repr

/-- The number that stands for a context type in messages. -/
def CtxType.code : CtxType → Int
  | mpcGPKLeader => 0
  | mpcGPKPeer => 1
  | mpcSignLeader => 2
  | mpcSignPeer => 3

inductive MsgCode where
  | mpcError
  | requestMPC
  | mpcMessage
  deriving DecidableEq, Repr

/-- A message between nodes. -/
structure MpcMessage where
  contextID : Nat
  stepID : Nat
  peers : Bytes
  data : List Int
  bytesData : List Bytes
  deriving DecidableEq, Repr

/-- A message as a step receives it, with the authenticated id of its sender. -/
structure StepMessage where
  peerID : NodeID
  data : List Int
  bytesData : List Bytes
  stepId : Nat
  deriving DecidableEq, Repr

/-- A message as a step creates it. Without a receiver it goes to every peer. -/
structure OutMessage where
  msgCode : MsgCode
  peerID : Option NodeID
  peers : Option (List PeerInfo)
  data : List Int
  bytesData : List Bytes
  deriving DecidableEq, Repr

inductive ResultKey where
  | mpcPrivateShare
  | rMpcPrivateShare
  | mpcPublicShare
  | rMpcPublicShare
  | mpcContextResult
  | publicKeyResult
  | rPublicKeyResult
  | mpcM
  | mpcS
  | mpcExt
  | mpcByApprove
  | mpcAddress
  | mpcAction
  deriving DecidableEq, Repr

/-- A value handed to a context when it is created; nil fields are `none`. -/
structure MpcValue where
  key : ResultKey
  value : Option (List Int)
  byteValue : Option Bytes
  deriving DecidableEq, Repr

structure BaseMpcResult where
  result : ResultKey → Option (List Int)
  byteResult : ResultKey → Option Bytes

namespace BaseMpcResult

def create : BaseMpcResult := ⟨fun _ => none, fun _ => none⟩

def setValue (store : BaseMpcResult) (key : ResultKey) (value : List Int) : BaseMpcResult :=
  { store with result := Function.update store.result key (some value) }

def setByteValue (store : BaseMpcResult) (key : ResultKey) (value : Bytes) : BaseMpcResult :=
  { store with byteResult := Function.update store.byteResult key (some value) }

def getValue (store : BaseMpcResult) (key : ResultKey) : Go (List Int) :=
  match store.result key with
  | some value => .ok value
  | none => .err .errMpcResultExist

def getByteValue (store : BaseMpcResult) (key : ResultKey) : Go Bytes :=
  match store.byteResult key with
  | some value => .ok value
  | none => .err .errQuit

def initializeValue (store : BaseMpcResult) (preSetValue : List MpcValue) : BaseMpcResult :=
  preSetValue.foldl (fun store item =>
    match item.value, item.byteValue with
    | some value, _ => store.setValue item.key value
    | none, some bytes => store.setByteValue item.key bytes
    | none, none => store) store

variable (store : BaseMpcResult) (key other : ResultKey) (value : List Int) (bytes : Bytes)

@[simp] theorem result_setValue : (store.setValue key value).result other =
    if other = key then some value else store.result other := by
  simp [setValue, Function.update_apply]

@[simp] theorem byteResult_setValue :
    (store.setValue key value).byteResult = store.byteResult := rfl

@[simp] theorem byteResult_setByteValue : (store.setByteValue key bytes).byteResult other =
    if other = key then some bytes else store.byteResult other := by
  simp [setByteValue, Function.update_apply]

@[simp] theorem result_setByteValue : (store.setByteValue key bytes).result = store.result := rfl

theorem getValue_eq_ok_iff : store.getValue key = .ok value ↔ store.result key = some value := by
  unfold getValue
  cases store.result key <;> simp

theorem getByteValue_eq_ok_iff :
    store.getByteValue key = .ok bytes ↔ store.byteResult key = some bytes := by
  unfold getByteValue
  cases store.byteResult key <;> simp

end BaseMpcResult

end SchnorrMpc
