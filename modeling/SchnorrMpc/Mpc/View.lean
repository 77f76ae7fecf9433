import SchnorrMpc.Mpc.Run
import SchnorrMpc.Step.Kinds
import Mathlib.Logic.Relation

/-!
# The protocol behind a run

What a run does to the data of its context, without channels, counters and
locks: a step may take any message that has been heard, and may go on or fail
at any moment. Every move of a run is such a move or changes nothing here.
-/
namespace SchnorrMpc

open Lib

variable {heard : NodeID → MpcMessage → Prop} {steps : List Step} {i : Nat} {step' step : Step}
  {result : Option Err} {ctx : MpcContext} {after : ContextRun} {act : Step → Option Step} {pc : Pc}
  {quitter : Option (Err × Nat)} {sender : NodeID} {msg : MpcMessage} {parcel : Parcel}
  {choice : Choice}

/-- A message of a step, with its receiver. -/
abbrev Mail := NodeID × MpcMessage

def mails (parcels : List Parcel) : List Mail :=
  parcels.filterMap (fun parcel =>
    if parcel.msgCode = .mpcMessage then some (parcel.receiver, parcel.msg) else none)

/-- How far the main process is: before a step, or during it with mail still to be sent. -/
inductive Stage where
  | before (i : Nat)
  | during (i : Nat) (mail : List Mail)
  | failed (error : Err)
  | done
  | panicked
  deriving DecidableEq, Repr

structure View where
  srv : MpcDistributor
  contextID : Nat
  peers : List PeerInfo
  store : BaseMpcResult
  bodies : List StepBody
  stage : Stage
  mailed : List Mail

namespace View

/-- A message has arrived, or the node has sent it to itself. -/
def Heard (arrives : NodeID → MpcMessage → Prop) (v : View) (sender : NodeID) (msg : MpcMessage) :
    Prop :=
  arrives sender msg ∨ sender = v.srv.self ∧ (v.srv.self, msg) ∈ v.mailed

inductive Moves (kenv : KeyEnv) (cfg : Config) (arrives : NodeID → MpcMessage → Prop) (v : View) :
    View → Prop where
  | handle (i : Nat) (sender : NodeID) (msg : MpcMessage) (body body' : StepBody)
      (accepted : Bool) (isBody : v.bodies[i]? = some body) (heard : v.Heard arrives sender msg)
      (isStep : msg.stepID = i)
      (handled : body.handleMessage v.peers (ContextRun.stepMessage sender msg) =
        .ok (accepted, body')) :
      Moves kenv cfg arrives v { v with bodies := v.bodies.set i body' }
  | init (i : Nat) (body body' : StepBody) (random : Randomness) (peers : List PeerInfo)
      (out : List OutMessage) (isStage : v.stage = .before i) (isBody : v.bodies[i]? = some body)
      (admissible : random.Admissible)
      (inits : body.initStep kenv.toEnv v.peers v.store random = some (.ok (body', peers)))
      (creates : body'.createMessage peers = .ok out) :
      Moves kenv cfg arrives v { v with
        peers
        bodies := v.bodies.set i body'
        stage := .during i (mails (out.flatMap (ContextRun.parcels v.srv v.contextID i peers))) }
  | mail (i : Nat) (item : Mail) (rest : List Mail) (isStage : v.stage = .during i (item :: rest)) :
      Moves kenv cfg arrives v
        { v with mailed := v.mailed ++ [item], stage := .during i rest }
  | finish (i : Nat) (body body' : StepBody) (choice : Choice) (store : BaseMpcResult)
      (srv : MpcDistributor) (isStage : v.stage = .during i []) (isBody : v.bodies[i]? = some body)
      (iterates : body.Iterates choice.orders)
      (finishes : body.finish kenv cfg v.srv v.peers v.store choice = .ok (body', store, srv)) :
      Moves kenv cfg arrives v
        { v with srv, store, bodies := v.bodies.set i body', stage := .before (i + 1) }
  | fail (error : Err) (running : (∃ i, v.stage = .before i) ∨ ∃ i mail, v.stage = .during i mail) :
      Moves kenv cfg arrives v { v with stage := .failed error }
  | complete (i : Nat) (isStage : v.stage = .before i) (isEnd : v.bodies[i]? = none) :
      Moves kenv cfg arrives v { v with stage := .done }
  | crash : Moves kenv cfg arrives v { v with stage := .panicked }

def Reaches (kenv : KeyEnv) (cfg : Config) (arrives : NodeID → MpcMessage → Prop) :
    View → View → Prop :=
  Relation.ReflTransGen (Moves kenv cfg arrives)

end View

def Pc.stage : Pc → Stage
  | .initMessageLoop _ => .before 0
  | .initStep i => .before i
  | .sending i parcels => .during i (mails parcels)
  | .waiting i | .stopping i _ | .finishStep i => .during i []
  | .failing error _ => .failed error
  | .quit none | .quitting none _ | .returned none => .done
  | .quit (some error) | .quitting (some error) _ | .returned (some error) => .failed error
  | .panicked => .panicked

def ContextRun.view (run : ContextRun) : View :=
  ⟨run.srv, run.ctx.contextID, run.ctx.peers, run.ctx.mpcResult,
    run.ctx.mpcSteps.map Step.body, run.pc.stage, mails run.sent⟩

/-! ### Channels hold what has been heard -/

/-- Every message in a channel has been heard, and is one for that step. -/
def Inbox (heard : NodeID → MpcMessage → Prop) (steps : List Step) : Prop :=
  ∀ i step, steps[i]? = some step → ∀ m, some m ∈ step.msgChan →
    ∃ msg, heard m.peerID msg ∧ msg.stepID = i ∧ m = ContextRun.stepMessage m.peerID msg

theorem Inbox.mono {heard' : NodeID → MpcMessage → Prop} (inbox : Inbox heard steps)
    (more : ∀ sender msg, heard sender msg → heard' sender msg) : Inbox heard' steps := by
  intro i step found m member
  obtain ⟨msg, was, isStep, same⟩ := inbox i step found m member
  exact ⟨msg, more _ _ was, isStep, same⟩

theorem getElem?_set_cases_ne {α : Type} {entries : List α} {i j : Nat} {entry after : α}
    (here : (entries.set j entry)[i]? = some after) :
    j = i ∧ after = entry ∨ j ≠ i ∧ entries[i]? = some after := by
  rw [List.getElem?_set] at here
  split at here
  next same =>
    split at here
    · cases here
      exact .inl ⟨same, rfl⟩
    · cases here
  next differs => exact .inr ⟨differs, here⟩

theorem getElem?_set_cases {α : Type} {entries : List α} {i j : Nat} {entry after : α}
    (here : (entries.set j entry)[i]? = some after) :
    j = i ∧ after = entry ∨ entries[i]? = some after :=
  (getElem?_set_cases_ne here).imp_right And.right

theorem Inbox.set (inbox : Inbox heard steps)
    (messages : ∀ m, some m ∈ step'.msgChan → ∃ msg, heard m.peerID msg ∧ msg.stepID = i ∧
      m = ContextRun.stepMessage m.peerID msg) :
    Inbox heard (steps.set i step') := by
  intro j step found m member
  rcases getElem?_set_cases found with ⟨rfl, rfl⟩ | old
  · exact messages m member
  · exact inbox j step old m member

/-- A change of a step that adds no message and leaves the body. -/
structure Step.Quiet (step step' : Step) : Prop where
  body : step'.body = step.body
  messages : ∀ m, some m ∈ step'.msgChan → some m ∈ step.msgChan

theorem Step.quiet_sendMessage (sent : step.sendMessage none = some step') : step.Quiet step' := by
  unfold Step.sendMessage at sent
  split at sent
  · cases sent
    exact ⟨rfl, fun m member => by simpa using member⟩
  · cases sent

theorem Step.quiet_sendFinish (sent : step.sendFinish result = some step') : step.Quiet step' := by
  unfold Step.sendFinish at sent
  split at sent
  · cases sent
    exact ⟨rfl, fun m member => member⟩
  · cases sent

theorem Step.quiet_initMessageLoop (started : step.initMessageLoop = some step') :
    step.Quiet step' := by
  unfold Step.initMessageLoop at started
  split at started
  · exact Step.quiet_sendFinish started
  · cases started
    exact ⟨rfl, fun m member => member⟩

theorem quiet_quitSend {sends : Nat}
    (sent : (if sends % 2 = 0 then step.sendMessage none else step.sendFinish result) =
      some step') :
    step.Quiet step' := by
  split at sent
  · exact Step.quiet_sendMessage sent
  · exact Step.quiet_sendFinish sent

theorem MpcContext.onStep_eq_some {after : MpcContext} (done : ctx.onStep i act = some after) :
    ∃ step step', ctx.mpcSteps[i]? = some step ∧ act step = some step' ∧
      after = { ctx with mpcSteps := ctx.mpcSteps.set i step' } := by
  unfold MpcContext.onStep at done
  split at done
  next => cases done
  next step found =>
    obtain ⟨step', acted, rfl⟩ := Option.map_eq_some_iff.mp done
    exact ⟨step, step', found, acted, rfl⟩

theorem map_body_set_same (found : steps[i]? = some step) (same : step'.body = step.body) :
    (steps.set i step').map Step.body = steps.map Step.body := by
  rw [List.map_set, same]
  refine List.ext_getElem? fun j => ?_
  rw [List.getElem?_set]
  split
  next here =>
    subst here
    obtain ⟨inside, isStep⟩ := List.getElem?_eq_some_iff.mp found
    simp [inside, isStep]
  next => rfl

/-! ### Every move of a run is a move here -/

theorem mem_mails_iff {parcels : List Parcel} {mail : Mail} : mail ∈ mails parcels ↔
    ∃ parcel ∈ parcels, parcel.msgCode = .mpcMessage ∧ mail = (parcel.receiver, parcel.msg) := by
  simp only [mails, List.mem_filterMap, Option.ite_none_right_eq_some, Option.some.injEq,
    @eq_comm _ mail]

theorem mails_append (a b : List Parcel) : mails (a ++ b) = mails a ++ mails b :=
  List.filterMap_append

theorem Inbox.quiet (inbox : Inbox heard steps) (found : steps[i]? = some step)
    (quiet : step.Quiet step') : Inbox heard (steps.set i step') :=
  inbox.set fun m member => inbox i step found m (quiet.messages m member)

section Finish

variable {kenv : KeyEnv} {cfg : Config} {srv srv' : MpcDistributor} {peers : List PeerInfo}
  {store store' : BaseMpcResult} {choice : Choice} {body body' : StepBody}
  (finishes : body.finish kenv cfg srv peers store choice = .ok (body', store', srv'))

include finishes

/-- A step that is not that of the group key leaves the distributor; the other one writes the
key file after its own result. -/
theorem StepBody.finish_cases :
    ∃ between, body.finishStep kenv.toEnv cfg peers store choice.orders = .ok (body', between) ∧
      ((∃ ptStep, body' = .gpk ptStep) ∧
          srv.createKeystore kenv between peers choice.draw = .ok (store', srv') ∨
        (∀ ptStep, body' ≠ .gpk ptStep) ∧ store' = between ∧ srv' = srv) := by
  simp only [finish, Outcome.bind_eq_ok_iff] at finishes
  obtain ⟨⟨after, between⟩, finished, rest⟩ := finishes
  cases after with
  | gpk ptStep =>
    simp only [Outcome.bind_eq_ok_iff] at rest
    obtain ⟨_, created, same⟩ := rest
    cases same
    exact ⟨between, finished, .inl ⟨⟨ptStep, rfl⟩, created⟩⟩
  | _ =>
    cases rest
    exact ⟨_, finished, .inr ⟨by simp, rfl, rfl⟩⟩

theorem StepBody.finish_kind : body'.kind = body.kind := by
  obtain ⟨_, finished, -⟩ := StepBody.finish_cases finishes
  exact StepBody.finishStep_kind finished

theorem StepBody.finish_srv : ∃ keyStore, srv' = { srv with keyStore } := by
  obtain ⟨_, -, ⟨-, created⟩ | ⟨-, -, rfl⟩⟩ := StepBody.finish_cases finishes
  · obtain ⟨_, _, _, _, _, keyStore, _, -, -, -, -, -, -, -, -, rfl⟩ :=
      MpcDistributor.createKeystore_eq_ok created
    exact ⟨keyStore, rfl⟩
  · exact ⟨srv'.keyStore, rfl⟩

end Finish

namespace ContextRun

variable {kenv : KeyEnv} {cfg : Config} {arrives : NodeID → MpcMessage → Prop}
  {run next : ContextRun}

/-- The channels are sound after the move, and the move is one of the protocol or none at all. -/
structure Refined (kenv : KeyEnv) (cfg : Config) (arrives : NodeID → MpcMessage → Prop)
    (run next : ContextRun) : Prop where
  inbox : Inbox (next.view.Heard arrives) next.ctx.mpcSteps
  moves : next.view = run.view ∨ View.Moves kenv cfg arrives run.view next.view

variable (inbox : Inbox (run.view.Heard arrives) run.ctx.mpcSteps)

include inbox

theorem Refined.of_stage (same : pc.stage = run.pc.stage) :
    Refined kenv cfg arrives run { run with pc, quitter } := by
  constructor
  · exact inbox
  · exact .inl (by simp only [view, same])

theorem Refined.of_fail (error : Err)
    (running : (∃ i, run.pc.stage = .before i) ∨ ∃ i mail, run.pc.stage = .during i mail) :
    Refined kenv cfg arrives run (run.fail error) := by
  constructor
  · exact inbox
  · exact .inr (.fail error running)

theorem Refined.of_panic : Refined kenv cfg arrives run run.panic := by
  constructor
  · exact inbox
  · exact .inr .crash

theorem Refined.of_quiet (done : run.ctx.onStep i act = some ctx)
    (quiet : ∀ step step', act step = some step' → step.Quiet step')
    (same : pc.stage = run.pc.stage) :
    Refined kenv cfg arrives run { run with ctx, pc, quitter } := by
  obtain ⟨step, step', found, acted, rfl⟩ := MpcContext.onStep_eq_some done
  have isQuiet := quiet step step' acted
  have sameView : view { run with
      ctx := { run.ctx with mpcSteps := run.ctx.mpcSteps.set i step' }, pc, quitter } =
        run.view := by
    simp only [view, same, map_body_set_same found isQuiet.body]
  constructor
  · rw [sameView]
    exact inbox.quiet found isQuiet
  · exact .inl sameView

omit inbox in
theorem getMessage_eq_some (got : run.getMessage sender msg = some next) :
    ∃ step step', run.ctx.mpcSteps[msg.stepID]? = some step ∧ step'.body = step.body ∧
      (∀ m, some m ∈ step'.msgChan → some m ∈ step.msgChan ∨ m = stepMessage sender msg) ∧
      next = { run with
        ctx := { run.ctx with mpcSteps := run.ctx.mpcSteps.set msg.stepID step' } } := by
  unfold getMessage at got
  split at got
  · cases got
  · obtain ⟨ctx, stepped, rfl⟩ := Option.map_eq_some_iff.mp got
    obtain ⟨step, step', found, acted, rfl⟩ := MpcContext.onStep_eq_some stepped
    unfold Step.sendMessage at acted
    split at acted
    · cases acted
      refine ⟨step, { step with msgChan := step.msgChan ++ [some (stepMessage sender msg)] },
        found, rfl, fun m member => ?_, rfl⟩
      simpa using member
    · cases acted

theorem Refined.of_getMessage (comes : arrives sender msg)
    (got : run.getMessage sender msg = some next) : Refined kenv cfg arrives run next := by
  obtain ⟨step, step', found, sameBody, messages, rfl⟩ := getMessage_eq_some got
  have sameView : view { run with
      ctx := { run.ctx with mpcSteps := run.ctx.mpcSteps.set msg.stepID step' } } = run.view := by
    simp only [view, map_body_set_same found sameBody]
  constructor
  · rw [sameView]
    refine inbox.set fun m member => ?_
    rcases messages m member with old | rfl
    · exact inbox _ step found m old
    · exact ⟨msg, .inl comes, rfl, rfl⟩
  · exact .inl sameView

/-- What sending a parcel does: it is recorded, and one's own message is in its channel. -/
theorem p2pMessage_eq_some (sent : run.p2pMessage parcel = some next) :
    next.srv = run.srv ∧ next.pc = run.pc ∧ next.sent = run.sent ++ [parcel] ∧
      next.ctx.contextID = run.ctx.contextID ∧ next.ctx.peers = run.ctx.peers ∧
      next.ctx.mpcResult = run.ctx.mpcResult ∧
      next.ctx.mpcSteps.map Step.body = run.ctx.mpcSteps.map Step.body ∧
      Inbox (next.view.Heard arrives) next.ctx.mpcSteps := by
  have more (next : ContextRun) (sameSrv : next.srv = run.srv)
      (sameSent : next.sent = run.sent ++ [parcel]) (sender : NodeID) (msg : MpcMessage)
      (heard : run.view.Heard arrives sender msg) : next.view.Heard arrives sender msg := by
    rcases heard with comes | ⟨self, own⟩
    · exact .inl comes
    · refine .inr ⟨?_, ?_⟩
      · simpa only [view, sameSrv] using self
      · simp only [view, sameSrv, sameSent, mails_append] at own ⊢
        exact List.mem_append_left _ own
  simp only [p2pMessage] at sent
  split at sent
  next own =>
    obtain ⟨step, step', found, sameBody, messages, rfl⟩ := getMessage_eq_some sent
    refine ⟨rfl, rfl, rfl, rfl, rfl, rfl, map_body_set_same found sameBody, ?_⟩
    have older := inbox.mono (more { run with
      sent := run.sent ++ [parcel]
      ctx := { run.ctx with mpcSteps := run.ctx.mpcSteps.set parcel.msg.stepID step' } } rfl rfl)
    refine older.set fun m member => ?_
    rcases messages m member with old | rfl
    · exact older _ step found m old
    · refine ⟨parcel.msg, .inr ⟨rfl, ?_⟩, rfl, rfl⟩
      simp [view, mails, own.1, own.2]
  next =>
    cases sent
    refine ⟨rfl, rfl, rfl, rfl, rfl, rfl, rfl, inbox.mono ?_⟩
    exact more { run with sent := run.sent ++ [parcel] } rfl rfl

theorem Refined.of_sending {rest : List Parcel} (isPc : run.pc = .sending i (parcel :: rest))
    (sent : run.p2pMessage parcel = some after) :
    Refined kenv cfg arrives run { after with pc := .sending i rest } := by
  obtain ⟨srv, -, history, contextID, peers, store, bodies, sound⟩ := p2pMessage_eq_some inbox sent
  refine ⟨sound, ?_⟩
  by_cases isMail : parcel.msgCode = .mpcMessage
  · right
    have stage : run.view.stage = .during i ((parcel.receiver, parcel.msg) :: mails rest) := by
      simp [view, isPc, Pc.stage, mails, isMail]
    have move : View.Moves kenv cfg arrives run.view _ := .mail i _ _ stage
    simp_all [view, Pc.stage, mails]
  · left
    simp_all [view, Pc.stage, mails]

theorem Refined.of_failing {error : Err} {peerID : NodeID} {peerIDs rest : List NodeID}
    (isPc : run.pc = .failing error peerIDs)
    (sent : run.p2pMessage ⟨peerID, .mpcError, msg⟩ = some after) :
    Refined kenv cfg arrives run { after with pc := .failing error rest } := by
  obtain ⟨srv, -, history, contextID, peers, store, bodies, sound⟩ := p2pMessage_eq_some inbox sent
  refine ⟨sound, .inl ?_⟩
  simp [view, Pc.stage, mails, isPc, srv, history, contextID, peers, store, bodies]

omit inbox in
/-- A round of the message loop drops a message or hands it to the step. -/
theorem handleMessage_cases {peers : List PeerInfo}
    (handled : step.handleMessage peers = some (.ok step')) :
    step.Quiet step' ∨ ∃ m accepted, some m ∈ step.msgChan ∧
      step.body.handleMessage peers m = .ok (accepted, step'.body) ∧
      ∀ m, some m ∈ step'.msgChan → some m ∈ step.msgChan := by
  unfold Step.handleMessage at handled
  split at handled
  next rest _ chan =>
    cases handled
    exact .inl ⟨rfl, fun m member => by simp_all⟩
  next m rest _ chan =>
    have later (m' : StepMessage) (member : some m' ∈ rest) : some m' ∈ step.msgChan := by
      rw [chan]
      exact List.mem_cons_of_mem _ member
    split at handled
    · cases handled
      exact .inl ⟨rfl, later⟩
    · split at handled
      next body refused =>
        cases handled
        exact .inr ⟨m, false, by simp [chan], refused, later⟩
      next body accepted =>
        simp only at handled
        split at handled
        · obtain ⟨finished, sent, same⟩ := Option.map_eq_some_iff.mp handled
          cases same
          have quiet := Step.quiet_sendFinish sent
          refine .inr ⟨m, true, by simp [chan], ?_, fun m' member => ?_⟩
          · rw [quiet.body]
            exact accepted
          · exact later m' (quiet.messages m' member)
        · cases handled
          exact .inr ⟨m, true, by simp [chan], accepted, later⟩
      next => cases handled
      next => cases handled
  next => cases handled

theorem Refined.of_messageLoop (looped : run.messageLoop i = some next) :
    Refined kenv cfg arrives run next := by
  unfold messageLoop at looped
  split at looped
  next => cases looped
  next step found =>
    obtain ⟨outcome, handled, rfl⟩ := Option.map_eq_some_iff.mp looped
    cases outcome with
    | panic => exact .of_panic inbox
    | err => exact .of_panic inbox
    | ok step' =>
      rcases handleMessage_cases handled with quiet | ⟨m, accepted, member, taken, messages⟩
      · have sameView : view { run with
            ctx := { run.ctx with mpcSteps := run.ctx.mpcSteps.set i step' } } = run.view := by
          simp only [view, map_body_set_same found quiet.body]
        constructor
        · rw [sameView]
          exact inbox.quiet found quiet
        · exact .inl sameView
      · constructor
        · exact inbox.set fun m' member' => inbox i step found m' (messages m' member')
        · obtain ⟨msg, heard, isStep, same⟩ := inbox i step found m member
          rw [same] at taken
          have isBody : run.view.bodies[i]? = some step.body := by simp [view, found]
          have move : View.Moves kenv cfg arrives run.view _ :=
            .handle i m.peerID msg step.body step'.body accepted isBody heard isStep taken
          right
          simpa [view, List.map_set] using move

theorem Refined.of_initStep {random : Randomness} (isPc : run.pc = .initStep i)
    (admissible : random.Admissible) (inited : run.initStep kenv.toEnv random i = some next) :
    Refined kenv cfg arrives run next := by
  have stage : run.view.stage = .before i := by simp [view, isPc, Pc.stage]
  unfold initStep at inited
  split at inited
  next missing =>
    cases inited
    refine ⟨inbox, .inr ?_⟩
    exact .complete i stage (by simpa [view] using missing)
  next step found =>
    have isBody : run.view.bodies[i]? = some step.body := by simp [view, found]
    obtain ⟨returned, inits, rfl⟩ := Option.map_eq_some_iff.mp inited
    split
    next => exact .of_panic inbox
    next error => exact .of_fail inbox error (.inl ⟨i, by simp [isPc, Pc.stage]⟩)
    next body peers =>
      simp only
      split
      next out creates =>
        constructor
        · exact inbox.set fun m member => inbox i step found m member
        · have move : View.Moves kenv cfg arrives run.view _ :=
            .init i step.body body random peers out stage isBody admissible inits creates
          right
          simpa [view, List.map_set, Pc.stage] using move
      next => exact .of_panic inbox

theorem Refined.of_finishStep (isPc : run.pc = .finishStep i)
    (iterates : ∀ step, run.ctx.mpcSteps[i]? = some step → step.body.Iterates choice.orders)
    (finished : run.finishStep kenv cfg choice i = some next) :
    Refined kenv cfg arrives run next := by
  have stage : run.view.stage = .during i [] := by simp [view, isPc, Pc.stage]
  unfold finishStep at finished
  split at finished
  next => cases finished
  next step found =>
    have isBody : run.view.bodies[i]? = some step.body := by simp [view, found]
    split at finished
    next =>
      cases finished
      exact .of_panic inbox
    next error _ =>
      cases finished
      exact .of_fail inbox error (.inr ⟨i, [], by simp [isPc, Pc.stage]⟩)
    next body store srv finishes =>
      cases finished
      have move : View.Moves kenv cfg arrives run.view _ :=
        .finish i step.body body choice store srv stage isBody (iterates step found) finishes
      obtain ⟨keyStore, rfl⟩ := StepBody.finish_srv finishes
      constructor
      · refine (inbox.mono fun sender msg heard => ?_).set fun m member => ?_
        · simpa [View.Heard, view] using heard
        · obtain ⟨msg, heard, isStep, same⟩ := inbox i step found m member
          exact ⟨msg, by simpa [View.Heard, view] using heard, isStep, same⟩
      · right
        simpa [view, List.map_set, Pc.stage] using move

theorem Refined.of_waitFinish {timeOut : Bool} (isPc : run.pc = .waiting i)
    (waited : run.waitFinish timeOut i = some next) : Refined kenv cfg arrives run next := by
  unfold waitFinish at waited
  split at waited
  next => cases waited
  next step found =>
    split at waited
    next =>
      cases waited
      exact .of_stage inbox (by simp [isPc, Pc.stage])
    next =>
      split at waited
      next => cases waited
      next result finish _ =>
        cases waited
        have quiet : step.Quiet { step with finish } := ⟨rfl, fun _ member => member⟩
        have sameView : view { run with
            ctx := { run.ctx with mpcSteps := run.ctx.mpcSteps.set i { step with finish } }
            pc := .stopping i result } = run.view := by
          simp only [view, map_body_set_same found quiet.body, isPc, Pc.stage]
        constructor
        · rw [sameView]
          exact inbox.quiet found quiet
        · exact .inl sameView

theorem Refined.of_stopLoop (isPc : run.pc = .stopping i result)
    (stopped : run.stopLoop i result = some next) : Refined kenv cfg arrives run next := by
  obtain ⟨ctx, acted, rfl⟩ := Option.map_eq_some_iff.mp stopped
  have quiet (step step' : Step) (sent : step.sendMessage none = some step') : step.Quiet step' :=
    Step.quiet_sendMessage sent
  cases result with
  | none => exact .of_quiet inbox acted quiet (by simp [isPc, Pc.stage])
  | some error =>
    obtain ⟨step, step', found, sent, rfl⟩ := MpcContext.onStep_eq_some acted
    have isQuiet := quiet step step' sent
    constructor
    · have same : Inbox (run.view.Heard arrives) (run.ctx.mpcSteps.set i step') :=
        inbox.quiet found isQuiet
      exact same
    · have move : View.Moves kenv cfg arrives run.view _ :=
        .fail error (.inr ⟨i, [], by simp [view, isPc, Pc.stage]⟩)
      right
      simpa [view, fail, Pc.stage, map_body_set_same found isQuiet.body] using move

theorem Refined.of_mainMPCProcess (permits : run.Permits arrives (.mainMPCProcess choice))
    (moved : run.mainMPCProcess kenv cfg choice = some next) :
    Refined kenv cfg arrives run next := by
  unfold mainMPCProcess at moved
  split at moved
  next i isPc =>
    unfold initMessageLoop at moved
    split at moved
    -- the start of the loops changes nothing of the protocol
    · cases moved
      exact .of_stage inbox (by rw [isPc]; rfl)
    · obtain ⟨ctx, started, rfl⟩ := Option.map_eq_some_iff.mp moved
      exact .of_quiet inbox started (fun _ _ => Step.quiet_initMessageLoop) (by rw [isPc]; rfl)
  next i isPc =>
    simp only [Permits, isPc] at permits
    exact .of_initStep inbox isPc permits moved
  next i isPc =>
    cases moved
    exact .of_stage inbox (by rw [isPc]; rfl)
  next i parcel rest isPc =>
    obtain ⟨after, sent, rfl⟩ := Option.map_eq_some_iff.mp moved
    exact .of_sending inbox isPc sent
  next i isPc => exact .of_waitFinish inbox isPc moved
  next i result isPc => exact .of_stopLoop inbox isPc moved
  next i isPc =>
    simp only [Permits, isPc] at permits
    exact .of_finishStep inbox isPc permits moved
  next error isPc =>
    cases moved
    exact .of_stage inbox (by rw [isPc]; rfl)
  next error peerID rest isPc =>
    obtain ⟨after, sent, rfl⟩ := Option.map_eq_some_iff.mp moved
    exact .of_failing inbox isPc sent
  -- Quit sends nothing to the others, so the stage stays
  next result isPc =>
    have same : (Pc.returned result).stage = run.pc.stage ∧
        (Pc.quitting result 0).stage = run.pc.stage := by
      rw [isPc]
      cases result <;> exact ⟨rfl, rfl⟩
    split at moved
    · cases moved
    · split at moved
      · cases moved
        exact .of_stage inbox same.1
      · cases moved
        constructor
        · exact inbox
        · exact .inl (by simp only [view, same.2])
  next result sends isPc =>
    have same (pc : Pc) (later : pc = .returned result ∨ pc = .quitting result (sends + 1)) :
        pc.stage = run.pc.stage := by
      rw [isPc]
      rcases later with rfl | rfl <;> cases result <;> rfl
    split at moved
    · cases moved
      exact .of_stage inbox (same _ (.inl rfl))
    · obtain ⟨ctx, sent, rfl⟩ := Option.map_eq_some_iff.mp moved
      exact .of_quiet inbox sent (fun _ _ => quiet_quitSend) (same _ (.inr rfl))
  next => cases moved
  next => cases moved

/-- Every move of a run is a move of the protocol, or changes nothing there. -/
theorem Moves.refines (moves : Moves kenv cfg arrives run next) :
    Refined kenv cfg arrives run next := by
  obtain ⟨action, permits, stepped⟩ := moves
  unfold step at stepped
  split at stepped
  · cases stepped
  · cases action with
    | mainMPCProcess choice => exact .of_mainMPCProcess inbox permits stepped
    | messageLoop i => exact .of_messageLoop inbox stepped
    | getMessage sender msg => exact .of_getMessage inbox permits stepped
    | quitMpcContext text =>
      simp only [quitMpcContext] at stepped
      split at stepped
      · cases stepped
      · cases stepped
        exact ⟨inbox, .inl rfl⟩
    | quitterSend =>
      simp only [quitterSend] at stepped
      split at stepped
      · cases stepped
      · split at stepped
        · cases stepped
          exact ⟨inbox, .inl rfl⟩
        · obtain ⟨ctx, sent, rfl⟩ := Option.map_eq_some_iff.mp stepped
          exact .of_quiet inbox sent (fun _ _ => quiet_quitSend) rfl

omit inbox in
theorem Reaches.refines {start : ContextRun} (reaches : Reaches kenv cfg arrives start run)
    (initially : Inbox (start.view.Heard arrives) start.ctx.mpcSteps) :
    Inbox (run.view.Heard arrives) run.ctx.mpcSteps ∧
      View.Reaches kenv cfg arrives start.view run.view := by
  induction reaches with
  | refl => exact ⟨initially, .refl⟩
  | tail _ last ih =>
    obtain ⟨sound, path⟩ := ih
    obtain ⟨soundAfter, same | move⟩ := last.refines sound
    · exact ⟨soundAfter, same ▸ path⟩
    · exact ⟨soundAfter, path.tail move⟩

end ContextRun
end SchnorrMpc
