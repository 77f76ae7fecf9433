import SchnorrMpc.Step.Kinds

/-!
# Contexts

A context is the sequence of steps of one key generation or one signing on one
node, with the peers and the result store that all its steps share.
-/
namespace SchnorrMpc

open Lib

variable {cfg : Config} {ctxType : CtxType} {mpcID : Nat} {peers : List PeerInfo}
  {preSetValue : List MpcValue}

/-- A step with its channels. `looping` says that its message loop runs. -/
structure Step where
  body : StepBody
  waiting : Int
  waitAll : Bool
  stepId : Nat
  capacity : Nat
  msgChan : List (Option StepMessage)
  finish : List (Option Err)
  looping : Bool
  deriving DecidableEq, Repr

namespace Step

/-- `CreateBaseStep`: a negative wait stands for all peers. -/
def create (body : StepBody) (peers : List PeerInfo) (wait : Int) : Step where
  body := body
  waiting := if wait ≥ 0 then wait else peers.length
  waitAll := true
  stepId := 0
  capacity := peers.length + 3
  msgChan := []
  finish := []
  looping := false

def setWaiting (step : Step) (waiting : Int) : Step := { step with waiting }

end Step

structure MpcContext where
  contextID : Nat
  peers : List PeerInfo
  mpcResult : BaseMpcResult
  mpcSteps : List Step
  bQuit : Bool

/-- `createMpcContext` with a store that holds the preset values. -/
def createMpcContext (contextID : Nat) (peers : List PeerInfo) (preSetValue : List MpcValue) :
    MpcContext :=
  ⟨contextID, peers, BaseMpcResult.create.initializeValue preSetValue, [], false⟩

/-- The steps in order, numbered from zero. -/
def MpcContext.setMpcStep (mpc : MpcContext) (steps : List Step) : MpcContext :=
  { mpc with mpcSteps := steps.zipIdx.map (fun entry => { entry.1 with stepId := entry.2 }) }

def MpcContext.getMpcResult (mpc : MpcContext) : Bytes :=
  (mpc.mpcResult.byteResult .mpcContextResult).getD []

/-! ### Key generation -/

def genCreateGPKMpc (cfg : Config) (mpc : MpcContext) (firstStep readyStep : Step) :
    Go MpcContext := do
  let skShare ← createSkPolyValue cfg.mpcDegree mpc.peers.length
  let gpk := MpcPointStep.create [.mpcPublicShare] [.publicKeyResult]
  pure (mpc.setMpcStep [firstStep, readyStep,
    .create (.skShare skShare) mpc.peers (-1),
    .create (.gpk gpk) mpc.peers (-1),
    .create (.ackGPK .create) mpc.peers (-1)])

def reqGPKMpc (cfg : Config) (mpcID : Nat) (peers : List PeerInfo) (preSetValue : List MpcValue) :
    Go MpcContext :=
  let mpc := createMpcContext mpcID peers preSetValue
  genCreateGPKMpc cfg mpc
    (.create (.request (.create .mpcGPKLeader)) peers ((peers.length : Int) - 1))
    (.create .ready peers 0)

/-- The follower's check of the seeds it is told: in range, and none twice. -/
def checkSeeds : List PeerInfo → List Nat → Go Unit
  | [], _ => .ok ()
  | item :: rest, found =>
    if item.seed > 0xffffff then .err .errMpcSeedOutRange
    else if item.seed ∈ found then .err .errMpcSeedDuplicate
    else checkSeeds rest (item.seed :: found)

def ackGPKMpc (cfg : Config) (mpcID : Nat) (peers : List PeerInfo) (preSetValue : List MpcValue) :
    Go MpcContext := do
  checkSeeds peers []
  let mpc := createMpcContext mpcID peers preSetValue
  genCreateGPKMpc cfg mpc (.create (.ackMpc .mpcGPKPeer) peers 0) (.create .getReady peers 1)

/-! ### Signing -/

def generateTxSignMpc (cfg : Config) (mpc : MpcContext) (firstStep readyStep : Step) :
    Go MpcContext := do
  let skShare ← createSkPolyValue cfg.mpcDegree mpc.peers.length
  let rStep := MpcPointStep.create [.rMpcPublicShare] [.rPublicKeyResult]
  let sStep := MpcSStep.create [.mpcPrivateShare] [.mpcS]
  let mpc := mpc.setMpcStep [firstStep, readyStep,
    .create (.rskShare skShare) mpc.peers (-1),
    (Step.create (.r rStep) mpc.peers (-1)).setWaiting cfg.mpcSchnrThr,
    (Step.create (.s sStep) mpc.peers (-1)).setWaiting cfg.mpcSchnrThr,
    (Step.create (.ackRS .create) mpc.peers (-1)).setWaiting cfg.mpcSchnrThr]
  -- a signing goes on with whatever has arrived when the time is over
  pure { mpc with mpcSteps := mpc.mpcSteps.map (fun step => { step with waitAll := false }) }

def reqSignMpc (cfg : Config) (mpcID : Nat) (peers : List PeerInfo) (preSetValue : List MpcValue) :
    Go MpcContext :=
  let mpc := createMpcContext mpcID peers preSetValue
  let reqMpc := Step.create (.request (.create .mpcSignLeader)) peers ((peers.length : Int) - 1)
  generateTxSignMpc cfg mpc (reqMpc.setWaiting cfg.mpcSchnrThr) (.create .ready peers 0)

/-- A follower of a signing takes the peers as it is told them. -/
def ackSignMpc (cfg : Config) (mpcID : Nat) (peers : List PeerInfo) (preSetValue : List MpcValue) :
    Go MpcContext :=
  let mpc := createMpcContext mpcID peers preSetValue
  generateTxSignMpc cfg mpc (.create (.ackMpc .mpcSignPeer) peers 0) (.create .getReady peers 1)

/-- The log line reads the first integer of every preset value but the private share. -/
def createContext (cfg : Config) (ctxType : CtxType) (mpcID : Nat) (peers : List PeerInfo)
    (preSetValue : List MpcValue) : Go MpcContext :=
  if preSetValue.any (fun item => item.key ≠ .mpcPrivateShare && item.value == some []) then .panic
  else
    match ctxType with
    | .mpcGPKLeader => reqGPKMpc cfg mpcID peers preSetValue
    | .mpcGPKPeer => ackGPKMpc cfg mpcID peers preSetValue
    | .mpcSignLeader => reqSignMpc cfg mpcID peers preSetValue
    | .mpcSignPeer => ackSignMpc cfg mpcID peers preSetValue

/-! ### What a created context starts with -/

theorem createSkPolyValue_ok {degree : Int} (fits : 0 ≤ degree + 1) (peerNum : Nat) :
    createSkPolyValue degree peerNum =
      .ok ⟨List.replicate (degree + 1).toNat 0, [], List.replicate peerNum 0, none⟩ :=
  if_neg (by omega)

theorem createSkPolyValue_eq_ok {degree : Int} {peerNum : Nat} {poly : RandomPolynomialValue}
    (drawn : createSkPolyValue degree peerNum = .ok poly) : 0 ≤ degree + 1 ∧
      poly = ⟨List.replicate (degree + 1).toNat 0, [], List.replicate peerNum 0, none⟩ := by
  unfold createSkPolyValue at drawn
  split at drawn
  next => cases drawn
  next fits => exact ⟨not_lt.mp fits, (Outcome.ok.inj drawn).symm⟩

theorem checkSeeds_eq_ok_iff (peers : List PeerInfo) (found : List Nat) :
    checkSeeds peers found = .ok () ↔
      (∀ item ∈ peers, item.seed ≤ 0xffffff ∧ item.seed ∉ found) ∧
        (peers.map PeerInfo.seed).Nodup := by
  induction peers generalizing found with
  | nil => simp [checkSeeds]
  | cons item rest ih =>
    unfold checkSeeds
    split
    next large => simp; omega
    next small =>
      split
      next seen => simp [seen]
      next fresh =>
        rw [ih]
        -- the seeds found so far are passed on, so the two conditions are split at the head
        constructor
        · rintro ⟨others, nodup⟩
          constructor
          · intro other member
            rcases List.mem_cons.mp member with rfl | later
            · exact ⟨by omega, fresh⟩
            · exact ⟨(others other later).1, fun old =>
                (others other later).2 (List.mem_cons_of_mem _ old)⟩
          · rw [List.map_cons, List.nodup_cons]
            refine ⟨fun again => ?_, nodup⟩
            obtain ⟨other, later, same⟩ := List.mem_map.mp again
            exact (others other later).2 (by simp [same])
        · rintro ⟨all, nodup⟩
          rw [List.map_cons, List.nodup_cons] at nodup
          constructor
          · intro other later
            have known := all other (List.mem_cons_of_mem _ later)
            refine ⟨known.1, fun old => ?_⟩
            rcases List.mem_cons.mp old with same | older
            · exact nodup.1 (List.mem_map.mpr ⟨other, later, same⟩)
            · exact known.2 older
          · exact nodup.2

theorem checkSeeds_ok_iff_table (peers : List PeerInfo) :
    checkSeeds peers [] = .ok () ↔
      (∀ item ∈ peers, item.seed ≤ 0xffffff) ∧ (peers.map PeerInfo.seed).Nodup := by
  rw [checkSeeds_eq_ok_iff]
  simp

/-- One of the steps of a key generation. -/
def gpkStep (peers : List PeerInfo) (stepId : Nat) (body : StepBody) (wait : Int) : Step :=
  { Step.create body peers wait with stepId }

def gpkSteps (leader : Bool) (peers : List PeerInfo) (poly : RandomPolynomialValue) : List Step :=
  (if leader then
    [gpkStep peers 0 (.request (.create .mpcGPKLeader)) ((peers.length : Int) - 1),
      gpkStep peers 1 .ready 0]
  else
    [gpkStep peers 0 (.ackMpc .mpcGPKPeer) 0,
      gpkStep peers 1 .getReady 1]) ++
    [gpkStep peers 2 (.skShare poly) (-1),
      gpkStep peers 3 (.gpk (.create [.mpcPublicShare] [.publicKeyResult])) (-1),
      gpkStep peers 4 (.ackGPK .create) (-1)]

/-- One of the steps of a signing, which goes on when the time is over. -/
def signStep (peers : List PeerInfo) (stepId : Nat) (body : StepBody) (waiting : Int) : Step :=
  { Step.create body peers 0 with waiting, waitAll := false, stepId }

def signSteps (cfg : Config) (leader : Bool) (peers : List PeerInfo)
    (poly : RandomPolynomialValue) : List Step :=
  (if leader then
    [signStep peers 0 (.request (.create .mpcSignLeader)) cfg.mpcSchnrThr,
      signStep peers 1 .ready 0]
  else
    [signStep peers 0 (.ackMpc .mpcSignPeer) 0,
      signStep peers 1 .getReady 1]) ++
    [signStep peers 2 (.rskShare poly) peers.length,
      signStep peers 3 (.r (.create [.rMpcPublicShare] [.rPublicKeyResult])) cfg.mpcSchnrThr,
      signStep peers 4 (.s (.create [.mpcPrivateShare] [.mpcS])) cfg.mpcSchnrThr,
      signStep peers 5 (.ackRS .create) cfg.mpcSchnrThr]

section Created

variable {ctx : MpcContext}

theorem createContext_gpkSteps (leader : Bool)
    (created : createContext cfg (if leader then .mpcGPKLeader else .mpcGPKPeer) mpcID peers
      preSetValue = .ok ctx) :
    ∃ poly, createSkPolyValue cfg.mpcDegree peers.length = .ok poly ∧
      ctx = { createMpcContext mpcID peers preSetValue with
        mpcSteps := gpkSteps leader peers poly } := by
  unfold createContext at created
  split at created
  next => cases created
  next =>
    cases leader with
    | true =>
      simp only [if_true, reqGPKMpc, genCreateGPKMpc, Outcome.bind_eq_ok_iff] at created
      obtain ⟨poly, isPoly, built⟩ := created
      cases built
      exact ⟨poly, isPoly, rfl⟩
    | false =>
      -- a follower has checked the seeds before
      simp only [Bool.false_eq_true, if_false, ackGPKMpc, genCreateGPKMpc,
        Outcome.bind_eq_ok_iff] at created
      obtain ⟨_, -, poly, isPoly, built⟩ := created
      cases built
      exact ⟨poly, isPoly, rfl⟩

theorem createContext_signSteps (leader : Bool)
    (created : createContext cfg (if leader then .mpcSignLeader else .mpcSignPeer) mpcID peers
      preSetValue = .ok ctx) :
    ∃ poly, createSkPolyValue cfg.mpcDegree peers.length = .ok poly ∧
      ctx = { createMpcContext mpcID peers preSetValue with
        mpcSteps := signSteps cfg leader peers poly } := by
  unfold createContext at created
  split at created
  next => cases created
  next =>
    cases leader with
    | true =>
      simp only [if_true, reqSignMpc, generateTxSignMpc, Outcome.bind_eq_ok_iff] at created
      obtain ⟨poly, isPoly, built⟩ := created
      cases built
      exact ⟨poly, isPoly, rfl⟩
    | false =>
      simp only [Bool.false_eq_true, if_false, ackSignMpc, generateTxSignMpc,
        Outcome.bind_eq_ok_iff] at created
      obtain ⟨poly, isPoly, built⟩ := created
      cases built
      exact ⟨poly, isPoly, rfl⟩

/-- A context has the steps of a key generation or of a signing, and nothing is in its result store
but what was preset. -/
theorem createContext_steps
    (created : createContext cfg ctxType mpcID peers preSetValue = .ok ctx) :
    ∃ leader poly steps, createSkPolyValue cfg.mpcDegree peers.length = .ok poly ∧
      (steps = gpkSteps leader peers poly ∨ steps = signSteps cfg leader peers poly) ∧
      ctx = { createMpcContext mpcID peers preSetValue with mpcSteps := steps } := by
  cases ctxType with
  | mpcGPKLeader =>
    obtain ⟨poly, isPoly, rfl⟩ := createContext_gpkSteps true created
    exact ⟨true, poly, _, isPoly, .inl rfl, rfl⟩
  | mpcGPKPeer =>
    obtain ⟨poly, isPoly, rfl⟩ := createContext_gpkSteps false created
    exact ⟨false, poly, _, isPoly, .inl rfl, rfl⟩
  | mpcSignLeader =>
    obtain ⟨poly, isPoly, rfl⟩ := createContext_signSteps true created
    exact ⟨true, poly, _, isPoly, .inr rfl, rfl⟩
  | mpcSignPeer =>
    obtain ⟨poly, isPoly, rfl⟩ := createContext_signSteps false created
    exact ⟨false, poly, _, isPoly, .inr rfl, rfl⟩

theorem createContext_eq (created : createContext cfg ctxType mpcID peers preSetValue = .ok ctx) :
    ∃ steps, ctx = { createMpcContext mpcID peers preSetValue with mpcSteps := steps } := by
  obtain ⟨_, _, steps, -, -, isCtx⟩ := createContext_steps created
  exact ⟨steps, isCtx⟩

theorem createContext_peers
    (created : createContext cfg ctxType mpcID peers preSetValue = .ok ctx) :
    ctx.peers = peers := by
  obtain ⟨_, rfl⟩ := createContext_eq created
  rfl

end Created

section Signing

variable {leader : Bool} {poly : RandomPolynomialValue}

theorem signSteps_quiet :
    ∀ step ∈ signSteps cfg leader peers poly, step.msgChan = [] ∧ step.finish = [] := by
  cases leader <;> simp [signSteps, signStep, Step.create]

theorem signSteps_drawn :
    ∀ step ∈ signSteps cfg leader peers poly, step.body.kind ≠ .request .mpcGPKLeader := by
  cases leader <;>
    simp [signSteps, signStep, Step.create, StepBody.kind, RequestMpcStep.create]

end Signing

end SchnorrMpc
