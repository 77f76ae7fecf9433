import SchnorrMpc.Step.AckSteps

/-!
# Steps of a context

What each kind of step does when it is initialized, when it creates its
messages, when a message arrives, and when it finishes. Channels and counting
are shared by all kinds and belong to the base step.
-/
namespace SchnorrMpc

open Lib S256

/-- The seed of a peer, zero for a node that is not one. -/
def getPeerSeed (peers : List PeerInfo) (peerID : NodeID) : Nat :=
  match peers.find? (fun item => item.peerID = peerID) with
  | some item => item.seed
  | none => 0

/-- What the random sources return while one step is initialized: the constant term or the
error of drawing it, the other coefficients, and the numbers `rand.Intn` gives, one after
another. -/
structure Randomness where
  s : Except Err Int
  draw : List Int
  intn : List (Fin 0x0FFFFFE)

/-- The scalars that the sources can return. -/
def Randomness.Admissible (random : Randomness) : Prop :=
  (∀ s, random.s = .ok s → 0 ≤ s ∧ s < N) ∧ ∀ a ∈ random.draw, 0 ≤ a ∧ a < N

/-- The orders in which the maps of the step's generators are iterated, one per generator. -/
structure Orders where
  scalars : List (Assoc Nat Int)
  points : List (Assoc Nat (Int × Int))
  deriving DecidableEq, Repr

/-! ### Several generators in one step -/

/-- Offer a message to each generator in turn. The first one that has heard from the sender
refuses it, and the generators before it have already taken their part. -/
def offer {γ : Type} (exist : γ → Bool) (accept : Nat → γ → Go γ) : Nat → List γ →
    Go (Bool × List γ)
  | _, [] => .ok (true, [])
  | i, generator :: rest =>
    if exist generator then .ok (false, generator :: rest)
    else do
      let generator ← accept i generator
      let (accepted, rest) ← offer exist accept (i + 1) rest
      pure (accepted, generator :: rest)

/-- Compute each generator's result, every one in its own iteration order. -/
def calculateEach {γ ο : Type} (calculate : γ → ο → Go γ) : List γ → List ο → Go (List γ)
  | [], _ => .ok []
  | _ :: _, [] => .panic
  | generator :: rest, order :: orders => do
    let generator ← calculate generator order
    let rest ← calculateEach calculate rest orders
    pure (generator :: rest)

/-- Store each generator's result under its key. -/
def storeEach {γ : Type} (value : γ → List Int) (resultKeys : List ResultKey) :
    Nat → List γ → BaseMpcResult → Go BaseMpcResult
  | _, [], store => .ok store
  | i, generator :: rest, store => do
    let key ← Outcome.index resultKeys i
    storeEach value resultKeys (i + 1) rest (store.setValue key (value generator))

/-! ### Public shares -/

structure MpcPointStep where
  messages : List MpcPointGenerator
  resultKeys : List ResultKey
  deriving DecidableEq, Repr

namespace MpcPointStep

def create (preValueKeys resultKeys : List ResultKey) : MpcPointStep :=
  ⟨preValueKeys.map createPointGenerator, resultKeys⟩

def signNum (ptStep : MpcPointStep) : Nat := ptStep.messages.length

def initStep (ptStep : MpcPointStep) (store : BaseMpcResult) : Go MpcPointStep := do
  let messages ← ptStep.messages.mapM (fun message => message.initializeFrom store)
  pure { ptStep with messages }

def createMessage (ptStep : MpcPointStep) : List OutMessage :=
  [⟨.mpcMessage, none, none,
    ptStep.messages.flatMap (fun pointer => [pointer.seed.1, pointer.seed.2]), []⟩]

/-- The log line at the top reads two integers of any message. -/
def handleMessage (ptStep : MpcPointStep) (peers : List PeerInfo) (msg : StepMessage) :
    Go (Bool × MpcPointStep) := do
  let seed := getPeerSeed peers msg.peerID
  let _ ← Outcome.index msg.data 0
  let _ ← Outcome.index msg.data 1
  if seed = 0 then pure (false, ptStep)
  else if msg.data.length ≠ 2 * ptStep.signNum then pure (false, ptStep)
  else do
    let (accepted, messages) ← offer (fun pointer => (pointer.message.lookup seed).isSome)
      (fun i pointer => do
        let x ← Outcome.index msg.data (2 * i)
        let y ← Outcome.index msg.data (2 * i + 1)
        pure { pointer with message := Assoc.assign pointer.message seed (x, y) })
      0 ptStep.messages
    pure (accepted, { ptStep with messages })

def finish (env : Env) (cfg : Config) (ptStep : MpcPointStep)
    (orders : List (Assoc Nat (Int × Int))) (store : BaseMpcResult) :
    Go (MpcPointStep × BaseMpcResult) := do
  let messages ← calculateEach (fun pointer order => pointer.calculateResult env cfg order)
    ptStep.messages orders
  let store ← storeEach (fun pointer => [pointer.result.1, pointer.result.2]) ptStep.resultKeys 0
    messages store
  pure ({ ptStep with messages }, store)

end MpcPointStep

/-! ### Signature shares -/

structure MpcSStep where
  messages : List MpcSGenerator
  resultKeys : List ResultKey
  deriving DecidableEq, Repr

namespace MpcSStep

def create (preValueKeys resultKeys : List ResultKey) : MpcSStep :=
  ⟨preValueKeys.map createSGenerator, resultKeys⟩

def signNum (msStep : MpcSStep) : Nat := msStep.messages.length

def initStep (env : Env) (msStep : MpcSStep) (store : BaseMpcResult) : Go MpcSStep := do
  let messages ← msStep.messages.mapM (fun message => message.initializeFrom env store)
  pure { msStep with messages }

def createMessage (msStep : MpcSStep) : List OutMessage :=
  [⟨.mpcMessage, none, none, msStep.messages.map (fun pointer => pointer.seed), []⟩]

/-- Each generator's value is read at twice its index, although the message has one value each. -/
def handleMessage (msStep : MpcSStep) (peers : List PeerInfo) (msg : StepMessage) :
    Go (Bool × MpcSStep) := do
  let seed := getPeerSeed peers msg.peerID
  if seed = 0 then pure (false, msStep)
  else if msg.data.length ≠ msStep.signNum then pure (false, msStep)
  else do
    let (accepted, messages) ← offer (fun pointer => (pointer.message.lookup seed).isSome)
      (fun i pointer => do
        let value ← Outcome.index msg.data (2 * i)
        pure { pointer with message := Assoc.assign pointer.message seed value })
      0 msStep.messages
    pure (accepted, { msStep with messages })

def finish (cfg : Config) (msStep : MpcSStep) (orders : List (Assoc Nat Int))
    (store : BaseMpcResult) : Go (MpcSStep × BaseMpcResult) := do
  let messages ← calculateEach (fun pointer order => pointer.calculateResult cfg order)
    msStep.messages orders
  let store ← storeEach (fun pointer => [pointer.result]) msStep.resultKeys 0 messages store
  pure ({ msStep with messages }, store)

end MpcSStep

/-! ### Sharing of a polynomial -/

namespace RandomPolynomialValue

def initStep (poly : RandomPolynomialValue) (peers : List PeerInfo) (random : Randomness) :
    Go RandomPolynomialValue :=
  match random.s with
  | .error error => .err error
  | .ok s => poly.initializeFrom peers s (fun i => random.draw.getD i 0)

/-- One message to each peer, with the polynomial's value at the seed of that peer. -/
def createMessage (poly : RandomPolynomialValue) (peers : List PeerInfo) : Go (List OutMessage) :=
  peers.zipIdx.mapM (fun entry => do
    let value ← Outcome.index poly.polyValue entry.2
    pure ⟨.mpcMessage, some entry.1.peerID, none, [value], []⟩)

/-- A sender without a seed is logged and filed under seed zero. -/
def handleMessage (poly : RandomPolynomialValue) (peers : List PeerInfo) (msg : StepMessage) :
    Go (Bool × RandomPolynomialValue) :=
  let seed := getPeerSeed peers msg.peerID
  match poly.message.lookup seed with
  | some _ => .ok (false, poly)
  | none => do
    let value ← Outcome.index msg.data 0
    pure (true, { poly with message := Assoc.assign poly.message seed value })

/-- The sum of the shares, and its public share; without coordinates the latter is dereferenced. -/
def finish (env : Env) (privateKey publicKey : ResultKey) (poly : RandomPolynomialValue)
    (orders : List (Assoc Nat Int)) (store : BaseMpcResult) :
    Go (RandomPolynomialValue × BaseMpcResult) :=
  match orders with
  | [] => .panic
  | order :: _ => do
    let poly := poly.calculateResult order
    let share := poly.result.getD 0
    let store := store.setValue privateKey [share]
    let gpkShare ← env.curve.scalarBaseMult (intBytes share)
    match gpkShare with
    | none => .panic
    | some (x, y) => pure (poly, store.setValue publicKey [x, y])

end RandomPolynomialValue

/-! ### The request of a leader -/

structure RequestMpcStep where
  messageType : CtxType
  mpcSignByApprove : List Int
  address : Bytes
  mpcM : Bytes
  mpcExt : Bytes
  message : Assoc NodeID Bool
  deriving DecidableEq, Repr

namespace RequestMpcStep

def create (messageType : CtxType) : RequestMpcStep := ⟨messageType, [], [], [], [], []⟩

/-- The loop over the peers, in which a seed that `findMap` knows is drawn again. There is no
result while the numbers drawn so far do not lead out of it. -/
def drawSeeds (findMap : List Nat) : List PeerInfo → List (Fin 0x0FFFFFE) → Option (List PeerInfo)
  | [], _ => some []
  | _ :: _, [] => none
  | peer :: peers, n :: intn =>
    if n.val + 1 ∈ findMap then drawSeeds findMap (peer :: peers) intn
    else (drawSeeds ((n.val + 1) :: findMap) peers intn).map
      ({ peer with seed := n.val + 1 } :: ·)

/-- The leader of a key generation draws the seeds; the leader of a signing reads the request. -/
def initStep (req : RequestMpcStep) (peers : List PeerInfo) (store : BaseMpcResult)
    (random : Randomness) : Option (Go (RequestMpcStep × List PeerInfo)) :=
  match req.messageType with
  | .mpcGPKLeader => (drawSeeds [] peers random.intn).map (fun peers => .ok (req, peers))
  | .mpcSignLeader => some (do
    let address ← store.getByteValue .mpcAddress
    let mpcM ← store.getByteValue .mpcM
    let mpcExt ← store.getByteValue .mpcExt
    let mpcSignByApprove ← store.getValue .mpcByApprove
    pure ({ req with address, mpcM, mpcExt, mpcSignByApprove }, peers))
  | _ => some (.ok (req, peers))

def createMessage (req : RequestMpcStep) (peers : List PeerInfo) : Go (List OutMessage) :=
  match req.messageType with
  | .mpcSignLeader => do
    let byApprove ← Outcome.index req.mpcSignByApprove 0
    pure [⟨.requestMPC, none, some peers, [req.messageType.code, byApprove],
      [req.mpcM, req.address, req.mpcExt]⟩]
  | _ => .ok [⟨.requestMPC, none, some peers, [req.messageType.code, 0], []⟩]

def handleMessage (req : RequestMpcStep) (msg : StepMessage) : Bool × RequestMpcStep :=
  match req.message.lookup msg.peerID with
  | some _ => (false, req)
  | none => (true, { req with message := Assoc.assign req.message msg.peerID true })

end RequestMpcStep

/-! ### All kinds of steps -/

inductive StepBody where
  | request (req : RequestMpcStep)
  | ackMpc (messageType : CtxType)
  | ready
  | getReady
  | skShare (poly : RandomPolynomialValue)
  | rskShare (poly : RandomPolynomialValue)
  | gpk (ptStep : MpcPointStep)
  | r (ptStep : MpcPointStep)
  | s (msStep : MpcSStep)
  | ackGPK (ack : AckMpcGPKStep)
  | ackRS (mars : MpcAckRSStep)
  deriving DecidableEq, Repr

namespace StepBody

/-- `InitStep`. Only a leader's request changes the peers, which all steps share, and only there
is a loop that may need more random numbers. -/
def initStep (env : Env) (body : StepBody) (peers : List PeerInfo) (store : BaseMpcResult)
    (random : Randomness) : Option (Go (StepBody × List PeerInfo)) :=
  match body with
  | request req => (req.initStep peers store random).map (fun inits => do
    let (req, peers) ← inits
    pure (request req, peers))
  | skShare poly => some (do
    let poly ← poly.initStep peers random
    pure (skShare poly, peers))
  | rskShare poly => some (do
    let poly ← poly.initStep peers random
    pure (rskShare poly, peers))
  | gpk ptStep => some (do
    let ptStep ← ptStep.initStep store
    pure (gpk ptStep, peers))
  | r ptStep => some (do
    let ptStep ← ptStep.initStep store
    pure (r ptStep, peers))
  | s msStep => some (do
    let msStep ← msStep.initStep env store
    pure (s msStep, peers))
  | ackGPK ack => some (do
    let ack ← ack.initStep store
    pure (ackGPK ack, peers))
  | ackRS mars => some (do
    let mars ← mars.initStep store
    pure (ackRS mars, peers))
  | ackMpc _ | ready | getReady => some (.ok (body, peers))

def createMessage (body : StepBody) (peers : List PeerInfo) : Go (List OutMessage) :=
  match body with
  | request req => req.createMessage peers
  | ackMpc messageType => .ok [⟨.mpcMessage, none, none, [messageType.code], []⟩]
  | ready => .ok [⟨.mpcMessage, none, none, [1], []⟩]
  | getReady => .ok []
  | skShare poly | rskShare poly => poly.createMessage peers
  | gpk ptStep | r ptStep => .ok ptStep.createMessage
  | s msStep => .ok msStep.createMessage
  | ackGPK ack => .ok ack.createMessage
  | ackRS mars => .ok mars.createMessage

/-- `HandleMessage` of the step's own kind: whether the message counts, and the step after it. -/
def handleMessage (body : StepBody) (peers : List PeerInfo) (msg : StepMessage) :
    Go (Bool × StepBody) :=
  match body with
  | request req =>
    let (accepted, req) := req.handleMessage msg
    .ok (accepted, request req)
  | ackMpc _ | ready | getReady => .ok (true, body)
  | skShare poly => do
    let (accepted, poly) ← poly.handleMessage peers msg
    pure (accepted, skShare poly)
  | rskShare poly => do
    let (accepted, poly) ← poly.handleMessage peers msg
    pure (accepted, rskShare poly)
  | gpk ptStep => do
    let (accepted, ptStep) ← ptStep.handleMessage peers msg
    pure (accepted, gpk ptStep)
  | r ptStep => do
    let (accepted, ptStep) ← ptStep.handleMessage peers msg
    pure (accepted, r ptStep)
  | s msStep => do
    let (accepted, msStep) ← msStep.handleMessage peers msg
    pure (accepted, s msStep)
  | ackGPK ack =>
    let (accepted, ack) := ack.handleMessage msg
    .ok (accepted, ackGPK ack)
  | ackRS mars =>
    let (accepted, mars) := mars.handleMessage msg
    .ok (accepted, ackRS mars)

/-- `FinishStep` after the wait has ended without an error. The key file that the step of the
group key writes is left to its caller. -/
def finishStep (env : Env) (cfg : Config) (body : StepBody) (peers : List PeerInfo)
    (store : BaseMpcResult) (orders : Orders) : Go (StepBody × BaseMpcResult) :=
  match body with
  | request req => .ok (body, store.setValue .mpcAction [req.messageType.code])
  | ackMpc messageType => .ok (body, store.setValue .mpcAction [messageType.code])
  | ready | getReady => .ok (body, store)
  | skShare poly => do
    let (poly, store) ← poly.finish env .mpcPrivateShare .mpcPublicShare orders.scalars store
    pure (skShare poly, store)
  | rskShare poly => do
    let (poly, store) ← poly.finish env .rMpcPrivateShare .rMpcPublicShare orders.scalars store
    pure (rskShare poly, store)
  | gpk ptStep => do
    let (ptStep, store) ← ptStep.finish env cfg orders.points store
    pure (gpk ptStep, store)
  | r ptStep => do
    let (ptStep, store) ← ptStep.finish env cfg orders.points store
    pure (r ptStep, store)
  | s msStep => do
    let (msStep, store) ← msStep.finish cfg orders.scalars store
    pure (s msStep, store)
  | ackGPK ack => do
    ack.check peers
    pure (body, store)
  | ackRS mars => do
    let store ← mars.finish env store
    pure (body, store)

/-- The orders that iterating over the step's maps can have. -/
def Iterates (body : StepBody) (orders : Orders) : Prop :=
  match body with
  | skShare poly | rskShare poly => ∃ order, orders.scalars = [order] ∧ order.Perm poly.message
  | gpk ptStep | r ptStep =>
    List.Forall₂ (fun order (pointer : MpcPointGenerator) => List.Perm order pointer.message)
      orders.points ptStep.messages
  | s msStep =>
    List.Forall₂ (fun order (pointer : MpcSGenerator) => List.Perm order pointer.message)
      orders.scalars msStep.messages
  | _ => True

end StepBody
end SchnorrMpc
