import SchnorrMpc.Mpc.Distributor

/-!
# A context at work

The main process of a context goes through the steps. Beside it every step has
a message loop, messages of peers arrive, and a peer's error makes the context
quit, each at any moment. Channels are bounded: a send that finds no room waits.
The bodies of `InitStep`, `HandleMessage` and `FinishStep` are taken as atomic.
-/
namespace SchnorrMpc

open Lib

/-- A message with the node it goes to. -/
structure Parcel where
  receiver : NodeID
  msgCode : MsgCode
  msg : MpcMessage
  deriving DecidableEq, Repr

/-- Where the main process is. -/
inductive Pc where
  | initMessageLoop (i : Nat)
  | initStep (i : Nat)
  | sending (i : Nat) (parcels : List Parcel)
  /-- In the `select` of `BaseStep.FinishStep`. -/
  | waiting (i : Nat)
  /-- Before `step.msgChan <- nil`, with what the wait has returned. -/
  | stopping (i : Nat) (result : Option Err)
  | finishStep (i : Nat)
  /-- The error is still to be sent to these nodes. -/
  | failing (error : Err) (peerIDs : List NodeID)
  /-- Before the lock of `quit`. -/
  | quit (result : Option Err)
  | quitting (result : Option Err) (sends : Nat)
  | returned (result : Option Err)
  | panicked
  deriving DecidableEq, Repr

/-- What random sources, map iterations, the clock and the file system do in one move. -/
structure Choice where
  random : Randomness
  orders : Orders
  timeOut : Bool
  draw : KeyStore.KeyDraw

/-- A context while it runs. `quitter` is the `quit` that an error of a peer has started, with
the sends it has done; `sent` is everything the node has sent, to itself too. -/
structure ContextRun where
  srv : MpcDistributor
  ctx : MpcContext
  pc : Pc
  quitter : Option (Err × Nat)
  sent : List Parcel

/-! ### Channels -/

namespace Step

def sendMessage (step : Step) (msg : Option StepMessage) : Option Step :=
  if step.msgChan.length < step.capacity then some { step with msgChan := step.msgChan ++ [msg] }
  else none

def sendFinish (step : Step) (result : Option Err) : Option Step :=
  if step.finish.length < 3 then some { step with finish := step.finish ++ [result] } else none

/-- A step that waits for nobody is finished at once. -/
def initMessageLoop (step : Step) : Option Step :=
  if step.waiting ≤ 0 then step.sendFinish none else some { step with looping := true }

/-- One round of the message loop: the step after it, and whether it panicked. -/
def handleMessage (peers : List PeerInfo) (step : Step) : Option (Go Step) :=
  match step.looping, step.msgChan with
  | true, none :: rest => some (.ok { step with msgChan := rest, looping := false })
  | true, some msg :: rest =>
    if msg.stepId ≠ step.stepId ∨ step.waiting ≤ 0 then some (.ok { step with msgChan := rest })
    else
      match step.body.handleMessage peers msg with
      | .ok (false, body) => some (.ok { step with msgChan := rest, body })
      | .ok (true, body) =>
        let step := { step with msgChan := rest, body, waiting := step.waiting - 1 }
        if step.waiting ≤ 0 then (step.sendFinish none).map .ok else some (.ok step)
      | .err error => some (.err error)
      | .panic => some .panic
  | _, _ => none

end Step

/-- Do something to one step of the context. -/
def MpcContext.onStep (ctx : MpcContext) (i : Nat) (act : Step → Option Step) :
    Option MpcContext :=
  match ctx.mpcSteps[i]? with
  | none => none
  | some step => (act step).map (fun step => { ctx with mpcSteps := ctx.mpcSteps.set i step })

/-- The sends of `quit`, counted through all steps: a nil message, then the result. -/
def MpcContext.quitSend (ctx : MpcContext) (result : Option Err) (sends : Nat) :
    Option MpcContext :=
  ctx.onStep (sends / 2) (fun step =>
    if sends % 2 = 0 then step.sendMessage none else step.sendFinish result)

namespace ContextRun

def start (srv : MpcDistributor) (ctx : MpcContext) : ContextRun :=
  ⟨srv, ctx, .initMessageLoop 0, none, []⟩

/-! ### Messages -/

/-- What `getMessage` makes of a message. -/
def stepMessage (sender : NodeID) (msg : MpcMessage) : StepMessage :=
  ⟨sender, msg.data, msg.bytesData, msg.stepID⟩

/-- `getMessage` on a registered context. There is no channel for a step that does not exist. -/
def getMessage (run : ContextRun) (sender : NodeID) (msg : MpcMessage) : Option ContextRun :=
  if msg.contextID ≠ run.ctx.contextID then none
  else
    (run.ctx.onStep msg.stepID (fun step => step.sendMessage (some (stepMessage sender msg)))).map
      (fun ctx => { run with ctx })

/-- `P2pMessage`: of its own parcels a node only gets the messages of steps. -/
def p2pMessage (run : ContextRun) (parcel : Parcel) : Option ContextRun :=
  let run := { run with sent := run.sent ++ [parcel] }
  if parcel.receiver = run.srv.self ∧ parcel.msgCode = .mpcMessage then
    run.getMessage run.srv.self parcel.msg
  else some run

/-- A message without a receiver goes to every peer. -/
def parcels (srv : MpcDistributor) (contextID i : Nat) (peers : List PeerInfo)
    (item : OutMessage) : List Parcel :=
  let mpcMsg : MpcMessage := ⟨contextID, i,
    (item.peers.map srv.setMessagePeers).getD [], item.data, item.bytesData⟩
  match item.peerID with
  | some peerID => [⟨peerID, item.msgCode, mpcMsg⟩]
  | none => peers.map (fun peer => ⟨peer.peerID, item.msgCode, mpcMsg⟩)

/-! ### The main process -/

def panic (run : ContextRun) : ContextRun := { run with pc := .panicked }

/-- The error is broadcast before the context quits. -/
def fail (run : ContextRun) (error : Err) : ContextRun :=
  { run with pc := .failing error (run.ctx.peers.map PeerInfo.peerID) }

def initMessageLoop (run : ContextRun) (i : Nat) : Option ContextRun :=
  if i = run.ctx.mpcSteps.length then some { run with pc := .initStep 0 }
  else
    (run.ctx.onStep i Step.initMessageLoop).map
      (fun ctx => { run with ctx, pc := .initMessageLoop (i + 1) })

/-- `InitStep` and `CreateMessage`. While the seeds are being drawn nothing else happens. -/
def initStep (env : Env) (run : ContextRun) (random : Randomness) (i : Nat) : Option ContextRun :=
  match run.ctx.mpcSteps[i]? with
  | none => some { run with pc := .quit none }
  | some step =>
    (step.body.initStep env run.ctx.peers run.ctx.mpcResult random).map (fun inits =>
      match inits with
      | .panic => run.panic
      | .err error => run.fail error
      | .ok (body, peers) =>
        let ctx := { run.ctx with peers, mpcSteps := run.ctx.mpcSteps.set i { step with body } }
        match body.createMessage peers with
        | .ok msg =>
          { run with ctx, pc := .sending i (msg.flatMap (parcels run.srv ctx.contextID i peers)) }
        | _ => run.panic)

/-- The `select` of `BaseStep.FinishStep`. -/
def waitFinish (run : ContextRun) (timeOut : Bool) (i : Nat) : Option ContextRun :=
  match run.ctx.mpcSteps[i]? with
  | none => none
  | some step =>
    if timeOut then
      some { run with pc := .stopping i (if step.waitAll then some .errTimeOut else none) }
    else
      match step.finish with
      | [] => none
      | result :: finish => some { run with
          ctx := { run.ctx with mpcSteps := run.ctx.mpcSteps.set i { step with finish } }
          pc := .stopping i result }

/-- The loop of the step is told to stop, and an error ends the process. -/
def stopLoop (run : ContextRun) (i : Nat) (result : Option Err) : Option ContextRun :=
  (run.ctx.onStep i (fun step => step.sendMessage none)).map (fun ctx =>
    match result with
    | none => { run with ctx, pc := .finishStep i }
    | some error => { run with ctx }.fail error)

end ContextRun

/-- `FinishStep` after the wait, with the key file that the step of the group key writes. What a
step that fails has put in the store is not read again. -/
def StepBody.finish (kenv : KeyEnv) (cfg : Config) (srv : MpcDistributor) (peers : List PeerInfo)
    (store : BaseMpcResult) (choice : Choice) (body : StepBody) :
    Go (StepBody × BaseMpcResult × MpcDistributor) := do
  let (body, store) ← body.finishStep kenv.toEnv cfg peers store choice.orders
  match body with
  | .gpk _ => do
    let (store, srv) ← srv.createKeystore kenv store peers choice.draw
    pure (body, store, srv)
  | _ => pure (body, store, srv)

namespace ContextRun

def finishStep (kenv : KeyEnv) (cfg : Config) (run : ContextRun) (choice : Choice) (i : Nat) :
    Option ContextRun :=
  match run.ctx.mpcSteps[i]? with
  | none => none
  | some step =>
    match step.body.finish kenv cfg run.srv run.ctx.peers run.ctx.mpcResult choice with
    | .panic => some run.panic
    | .err error => some (run.fail error)
    | .ok (body, mpcResult, srv) => some { run with
        srv
        ctx := { run.ctx with mpcResult, mpcSteps := run.ctx.mpcSteps.set i { step with body } }
        pc := .initStep (i + 1) }

/-- One move of the main process. -/
def mainMPCProcess (kenv : KeyEnv) (cfg : Config) (run : ContextRun) (choice : Choice) :
    Option ContextRun :=
  match run.pc with
  | .initMessageLoop i => run.initMessageLoop i
  | .initStep i => run.initStep kenv.toEnv choice.random i
  | .sending i [] => some { run with pc := .waiting i }
  | .sending i (parcel :: rest) =>
    (run.p2pMessage parcel).map (fun run => { run with pc := .sending i rest })
  | .waiting i => run.waitFinish choice.timeOut i
  | .stopping i result => run.stopLoop i result
  | .finishStep i => run.finishStep kenv cfg choice i
  | .failing error [] => some { run with pc := .quit (some error) }
  | .failing error (peerID :: rest) =>
    (run.p2pMessage ⟨peerID, .mpcError, ⟨run.ctx.contextID, 0, error.error, [], []⟩⟩).map
      (fun run => { run with pc := .failing error rest })
  | .quit result =>
    if run.quitter.isSome then none
    else if run.ctx.bQuit then some { run with pc := .returned result }
    else some { run with ctx := { run.ctx with bQuit := true }, pc := .quitting result 0 }
  | .quitting result sends =>
    if sends = 2 * run.ctx.mpcSteps.length then some { run with pc := .returned result }
    else
      (run.ctx.quitSend none sends).map
        (fun ctx => { run with ctx, pc := .quitting result (sends + 1) })
  | .returned _ | .panicked => none

/-! ### What runs beside it -/

def messageLoop (run : ContextRun) (i : Nat) : Option ContextRun :=
  match run.ctx.mpcSteps[i]? with
  | none => none
  | some step =>
    (step.handleMessage run.ctx.peers).map (fun handled =>
      match handled with
      | .ok step => { run with
          ctx := { run.ctx with mpcSteps := run.ctx.mpcSteps.set i step } }
      | _ => run.panic)

/-- `QuitMpcContext` takes the lock unless the context is quitting already. -/
def quitMpcContext (run : ContextRun) (text : Bytes) : Option ContextRun :=
  if run.ctx.bQuit then none
  else some { run with
    ctx := { run.ctx with bQuit := true }
    quitter := some (.new text, 0) }

def quitterSend (run : ContextRun) : Option ContextRun :=
  match run.quitter with
  | none => none
  | some (error, sends) =>
    if sends = 2 * run.ctx.mpcSteps.length then some { run with quitter := none }
    else
      (run.ctx.quitSend (some error) sends).map
        (fun ctx => { run with ctx, quitter := some (error, sends + 1) })

end ContextRun

/-- What can happen next on a node that runs a context. -/
inductive Action where
  | mainMPCProcess (choice : Choice)
  | messageLoop (i : Nat)
  | getMessage (sender : NodeID) (msg : MpcMessage)
  | quitMpcContext (text : Bytes)
  | quitterSend

namespace ContextRun

/-- A panic ends the whole process of the node. -/
def step (kenv : KeyEnv) (cfg : Config) (run : ContextRun) (action : Action) : Option ContextRun :=
  if run.pc = .panicked then none
  else
    match action with
    | .mainMPCProcess choice => run.mainMPCProcess kenv cfg choice
    | .messageLoop i => run.messageLoop i
    | .getMessage sender msg => run.getMessage sender msg
    | .quitMpcContext text => run.quitMpcContext text
    | .quitterSend => run.quitterSend

/-- The choices are ones that the sources and the iterations can make, and messages are among
those that `arrives` lets through. -/
def Permits (arrives : NodeID → MpcMessage → Prop) (run : ContextRun) : Action → Prop
  | .mainMPCProcess choice =>
    match run.pc with
    | .initStep _ => choice.random.Admissible
    | .finishStep i => ∀ step, run.ctx.mpcSteps[i]? = some step → step.body.Iterates choice.orders
    | _ => True
  | .getMessage sender msg => arrives sender msg
  | _ => True

def Moves (kenv : KeyEnv) (cfg : Config) (arrives : NodeID → MpcMessage → Prop)
    (run next : ContextRun) : Prop :=
  ∃ action, run.Permits arrives action ∧ run.step kenv cfg action = some next

def Reaches (kenv : KeyEnv) (cfg : Config) (arrives : NodeID → MpcMessage → Prop) :
    ContextRun → ContextRun → Prop :=
  Relation.ReflTransGen (Moves kenv cfg arrives)

end ContextRun
end SchnorrMpc
