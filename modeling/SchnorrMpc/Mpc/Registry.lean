import SchnorrMpc.Lib.Trace
import SchnorrMpc.Mpc.Request

/-!
# The map of running contexts

A call that answers a request or starts a context of its own looks into
`mpcMap`, later adds its context, runs it and removes the id again. Messages
are given to whatever the map has under their id. Each access takes the lock on
its own, so it is one atomic operation, and the calls take turns in between.
-/
namespace SchnorrMpc

open Lib

/-- What the calls of a node do. A context is known by the ticket of the call that made it. -/
inductive ServerOp where
  | node (op : NodeOp)
  | addMpcContext (mpcID ticket : Nat)
  | mainMPCProcess (ticket : Nat)
  | removeMpcContext (mpcID : Nat)
  /-- The lookup of `getMpcMessage` and of `QuitMpcContext`. -/
  | findContext (mpcID : Nat)
  deriving DecidableEq, Repr

abbrev ServerAns : ServerOp → Type
  | .node op => NodeAns op
  | .addMpcContext _ _ => Unit
  | .mainMPCProcess _ => Except Err Unit
  | .removeMpcContext _ => Unit
  | .findContext _ => Option Nat

abbrev ServerM (α : Type) := Prog ServerAns Err α

namespace ServerM

/-- What prepares a context as a part of the whole call. -/
def embed {α : Type} : NodeM α → ServerM α
  | .done result => .done result
  | .call op next => .call (ServerOp.node op) (fun answer => embed (next answer))

/-- The context is added, run and removed, whatever its process returns. -/
def runContext (mpcID ticket : Nat) : ServerM Unit := do
  Prog.perform (ServerOp.addMpcContext mpcID ticket)
  let _ ← Prog.perform (ServerOp.mainMPCProcess ticket)
  Prog.perform (ServerOp.removeMpcContext mpcID)

end ServerM

/-- `getMpcID` for the numbers that are drawn. When there are no more, the source has failed. -/
def getMpcID (failure : Err) : List Nat → NodeM Nat
  | [] => .done (.err failure)
  | mpcID :: draws => do
    if ← NodeM.contextExists mpcID then getMpcID failure draws else pure mpcID

/-- What the operator asks a leader for. -/
inductive LeaderRequest where
  | gpk
  | sign (data ext : Option Bytes) (pkBytes : Bytes) (byApprove : Int)
  deriving DecidableEq, Repr

/-- `createRequestMpcContext` from the id to its call of `CreateContext`. -/
def LeaderRequest.createContext (env : Env) (cfg : Config) (srv : MpcDistributor) (mpcID : Nat) :
    LeaderRequest → NodeM MpcContext
  | gpk => .done (createRequestGPK cfg srv mpcID)
  | sign data ext pkBytes byApprove => do
    let address ← .done (pkToAddress env pkBytes)
    let loaded ← .done (← NodeM.loadStoremanAddress address)
    .done (SchnorrMpc.createContext cfg .mpcSignLeader mpcID loaded.peers
      [⟨.mpcAddress, none, some pkBytes⟩, ⟨.mpcM, none, data⟩, ⟨.mpcExt, none, ext⟩,
        ⟨.mpcByApprove, some [byApprove], none⟩, loaded.shareValue, loaded.gpkValue])

inductive ServerRequest where
  | requestMPC (srv : MpcDistributor) (msg : MpcMessage) (polls : Nat)
  | createRequestMpcContext (srv : MpcDistributor) (draws : List Nat) (failure : Err)
      (request : LeaderRequest)
  | getMpcMessage (contextID : Nat)
  | quitMpcContext (contextID : Nat)
  deriving DecidableEq

/-- A call of the node. Each call has its own ticket. -/
structure ServerCall where
  ticket : Nat
  request : ServerRequest
  deriving DecidableEq

def ServerCall.program (venv : ValEnv) (cfg : Config) (call : ServerCall) : ServerM Unit :=
  match call.request with
  | .requestMPC srv msg polls => do
    let _ ← ServerM.embed (createMpcCtx venv cfg srv msg polls)
    ServerM.runContext msg.contextID call.ticket
  | .createRequestMpcContext srv draws failure request => do
    let mpcID ← ServerM.embed (getMpcID failure draws)
    let _ ← ServerM.embed (request.createContext venv.toEnv cfg srv mpcID)
    ServerM.runContext mpcID call.ticket
  | .getMpcMessage contextID | .quitMpcContext contextID => do
    let _ ← Prog.perform (ServerOp.findContext contextID)
    pure ()

/-- The contexts by their ids, each as the ticket of its call. -/
abbrev MpcMap := Nat → Option Nat

/-- The lock makes every access to the map one step. What is loaded, what the database answers
and how a context ends is left open. -/
inductive MpcMap.Step : MpcMap → (op : ServerOp) → ServerAns op → MpcMap → Prop where
  | contextExists (mpcMap : MpcMap) (contextID : Nat) :
      Step mpcMap (.node (.contextExists contextID)) (mpcMap contextID).isSome mpcMap
  | loadStoremanAddress (mpcMap : MpcMap) (address : Address)
      (answer : Go MpcDistributor.Loaded) :
      Step mpcMap (.node (.loadStoremanAddress address)) answer mpcMap
  | db (mpcMap : MpcMap) (op : DbOp) (answer : DbAns op) :
      Step mpcMap (.node (.db op)) answer mpcMap
  | addMpcContext (mpcMap : MpcMap) (mpcID ticket : Nat) :
      Step mpcMap (.addMpcContext mpcID ticket) () (Function.update mpcMap mpcID (some ticket))
  | mainMPCProcess (mpcMap : MpcMap) (ticket : Nat) (result : Except Err Unit) :
      Step mpcMap (.mainMPCProcess ticket) result mpcMap
  | removeMpcContext (mpcMap : MpcMap) (mpcID : Nat) :
      Step mpcMap (.removeMpcContext mpcID) () (Function.update mpcMap mpcID none)
  | findContext (mpcMap : MpcMap) (mpcID : Nat) :
      Step mpcMap (.findContext mpcID) (mpcMap mpcID) mpcMap

/-- One way to answer: no account, no database, and contexts that end well. -/
def MpcMap.handle : (op : ServerOp) → MpcMap → ServerAns op × MpcMap
  | .node (.contextExists contextID), mpcMap => ((mpcMap contextID).isSome, mpcMap)
  | .node (.loadStoremanAddress _), mpcMap => (.err .errGetDb, mpcMap)
  | .node (.db op), mpcMap => (Db.failure .errGetDb op, mpcMap)
  | .addMpcContext mpcID ticket, mpcMap => ((), Function.update mpcMap mpcID (some ticket))
  | .mainMPCProcess _, mpcMap => (.ok (), mpcMap)
  | .removeMpcContext mpcID, mpcMap => ((), Function.update mpcMap mpcID none)
  | .findContext mpcID, mpcMap => (mpcMap mpcID, mpcMap)

theorem MpcMap.handle_step (mpcMap : MpcMap) (op : ServerOp) :
    Step mpcMap op (handle op mpcMap).1 (handle op mpcMap).2 := by
  match op with
  | .node (.contextExists contextID) => exact .contextExists mpcMap contextID
  | .node (.loadStoremanAddress address) => exact .loadStoremanAddress mpcMap address _
  | .node (.db op) => exact .db mpcMap op _
  | .addMpcContext mpcID ticket => exact .addMpcContext mpcMap mpcID ticket
  | .mainMPCProcess ticket => exact .mainMPCProcess mpcMap ticket _
  | .removeMpcContext mpcID => exact .removeMpcContext mpcMap mpcID
  | .findContext mpcID => exact .findContext mpcMap mpcID

end SchnorrMpc
