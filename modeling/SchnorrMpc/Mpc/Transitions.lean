import SchnorrMpc.Mpc.Follow
import SchnorrMpc.Mpc.MessageLoop
import SchnorrMpc.Mpc.View

/-!
# Everything a running context can do

The moves of a context one by one, each with what it requires and what it
changes, down to the channels. A run lists the messages that have arrived, and
may be one in which every move meets a condition.
-/
namespace SchnorrMpc

open Lib

variable {result : Option Err} {choice : Choice} {i j : Nat} {parcel : Parcel} {action : Action}
  {steps : List Step} {step' after : Step} {few many arrives : NodeID → MpcMessage → Prop}
  {next : ContextRun} {actions : List Action}

namespace ContextRun

def setStep (run : ContextRun) (i : Nat) (step : Step) : ContextRun :=
  { run with ctx := { run.ctx with mpcSteps := run.ctx.mpcSteps.set i step } }

section

variable (run : ContextRun) (i : Nat) (step : Step)

@[simp] theorem setStep_srv : (run.setStep i step).srv = run.srv := rfl

@[simp] theorem setStep_pc : (run.setStep i step).pc = run.pc := rfl

@[simp] theorem setStep_quitter : (run.setStep i step).quitter = run.quitter := rfl

@[simp] theorem setStep_sent : (run.setStep i step).sent = run.sent := rfl

@[simp] theorem setStep_contextID : (run.setStep i step).ctx.contextID = run.ctx.contextID := rfl

@[simp] theorem setStep_peers : (run.setStep i step).ctx.peers = run.ctx.peers := rfl

@[simp] theorem setStep_mpcResult : (run.setStep i step).ctx.mpcResult = run.ctx.mpcResult := rfl

@[simp] theorem setStep_bQuit : (run.setStep i step).ctx.bQuit = run.ctx.bQuit := rfl

@[simp] theorem setStep_mpcSteps :
    (run.setStep i step).ctx.mpcSteps = run.ctx.mpcSteps.set i step := rfl

end

/-- The node gets this parcel from itself. -/
def Own (run : ContextRun) (parcel : Parcel) : Prop :=
  parcel.receiver = run.srv.self ∧ parcel.msgCode = .mpcMessage

/-- Where the main process goes with what the wait for a step has returned. -/
def afterWait (run : ContextRun) (i : Nat) : Option Err → Pc
  | none => .finishStep i
  | some error => .failing error (run.ctx.peers.map PeerInfo.peerID)

/-- The main process goes on, and leaves the steps, the store and what has been sent. -/
inductive Turns (kenv : KeyEnv) (cfg : Config) (run : ContextRun)
    (choice : Choice) : Pc → Prop where
  | loopsStarted (isPc : run.pc = .initMessageLoop run.ctx.mpcSteps.length) :
      Turns kenv cfg run choice (.initStep 0)
  | stepsDone {i : Nat} (isPc : run.pc = .initStep i) (isEnd : run.ctx.mpcSteps[i]? = none) :
      Turns kenv cfg run choice (.quit none)
  | initFails {i : Nat} {step : Step} {error : Err} (isPc : run.pc = .initStep i)
      (found : run.ctx.mpcSteps[i]? = some step)
      (fails : step.body.initStep kenv.toEnv run.ctx.peers run.ctx.mpcResult choice.random =
        some (.err error)) :
      Turns kenv cfg run choice (.failing error (run.ctx.peers.map PeerInfo.peerID))
  | parcelsSent {i : Nat} (isPc : run.pc = .sending i []) : Turns kenv cfg run choice (.waiting i)
  | timesOut {i : Nat} {step : Step} (isPc : run.pc = .waiting i)
      (found : run.ctx.mpcSteps[i]? = some step) (late : choice.timeOut = true) :
      Turns kenv cfg run choice (.stopping i (if step.waitAll then some .errTimeOut else none))
  | finishFails {i : Nat} {step : Step} {error : Err} (isPc : run.pc = .finishStep i)
      (found : run.ctx.mpcSteps[i]? = some step)
      (fails : step.body.finish kenv cfg run.srv run.ctx.peers run.ctx.mpcResult choice =
        .err error) :
      Turns kenv cfg run choice (.failing error (run.ctx.peers.map PeerInfo.peerID))
  | errorSent {error : Err} (isPc : run.pc = .failing error []) :
      Turns kenv cfg run choice (.quit (some error))
  | hasQuit {result : Option Err} (isPc : run.pc = .quit result) (quits : run.ctx.bQuit = true)
      (unlocked : run.quitter = none) : Turns kenv cfg run choice (.returned result)
  | quitEnds {result : Option Err}
      (isPc : run.pc = .quitting result (2 * run.ctx.mpcSteps.length)) :
        Turns kenv cfg run choice (.returned result)
  | panics {i : Nat} (isPc : run.pc = .initStep i ∨ run.pc = .finishStep i) :
      Turns kenv cfg run choice .panicked

end ContextRun

/-- One send of `quit`. -/
inductive Step.QuitPut (result : Option Err) (sends : Nat) (step : Step) : Step → Prop where
  | message (even : sends % 2 = 0) (room : step.msgChan.length < step.capacity) :
      QuitPut result sends step { step with msgChan := step.msgChan ++ [none] }
  | finish (odd : sends % 2 = 1) (room : step.finish.length < 3) :
      QuitPut result sends step { step with finish := step.finish ++ [result] }

namespace ContextRun

/-- The moves of a run. -/
inductive Does (kenv : KeyEnv) (cfg : Config) (run : ContextRun) : Action → ContextRun → Prop where
  | turns {choice : Choice} {pc : Pc} (turn : run.Turns kenv cfg choice pc) :
      Does kenv cfg run (.mainMPCProcess choice) { run with pc }
  | startsLoop {choice : Choice} {i : Nat} {step : Step} (isPc : run.pc = .initMessageLoop i)
      (found : run.ctx.mpcSteps[i]? = some step) (waits : 0 < step.waiting) :
      Does kenv cfg run (.mainMPCProcess choice)
        { run.setStep i { step with looping := true } with pc := .initMessageLoop (i + 1) }
  | skipsLoop {choice : Choice} {i : Nat} {step : Step} (isPc : run.pc = .initMessageLoop i)
      (found : run.ctx.mpcSteps[i]? = some step) (idle : step.waiting ≤ 0)
      (room : step.finish.length < 3) :
      Does kenv cfg run (.mainMPCProcess choice)
        { run.setStep i { step with finish := step.finish ++ [none] } with
          pc := .initMessageLoop (i + 1) }
  | inits {choice : Choice} {i : Nat} {step : Step} {body : StepBody} {peers : List PeerInfo}
      {out : List OutMessage} (isPc : run.pc = .initStep i)
      (found : run.ctx.mpcSteps[i]? = some step)
      (inits : step.body.initStep kenv.toEnv run.ctx.peers run.ctx.mpcResult choice.random =
        some (.ok (body, peers)))
      (creates : body.createMessage peers = .ok out) :
      Does kenv cfg run (.mainMPCProcess choice) { run with
        ctx := { run.ctx with peers, mpcSteps := run.ctx.mpcSteps.set i { step with body } }
        pc := .sending i (out.flatMap (parcels run.srv run.ctx.contextID i peers)) }
  | sends {choice : Choice} {i : Nat} {parcel : Parcel} {rest : List Parcel}
      (isPc : run.pc = .sending i (parcel :: rest)) (away : ¬run.Own parcel) :
      Does kenv cfg run (.mainMPCProcess choice)
        { run with sent := run.sent ++ [parcel], pc := .sending i rest }
  | sendsOwn {choice : Choice} {i : Nat} {parcel : Parcel} {rest : List Parcel} {step : Step}
      (isPc : run.pc = .sending i (parcel :: rest)) (own : run.Own parcel)
      (isContext : parcel.msg.contextID = run.ctx.contextID)
      (found : run.ctx.mpcSteps[parcel.msg.stepID]? = some step)
      (room : step.msgChan.length < step.capacity) :
      Does kenv cfg run (.mainMPCProcess choice)
        { run.setStep parcel.msg.stepID { step with
            msgChan := step.msgChan ++ [some (stepMessage run.srv.self parcel.msg)] } with
          sent := run.sent ++ [parcel], pc := .sending i rest }
  | waits {choice : Choice} {i : Nat} {step : Step} {result : Option Err}
      {finish : List (Option Err)} (isPc : run.pc = .waiting i)
      (found : run.ctx.mpcSteps[i]? = some step) (inTime : choice.timeOut = false)
      (head : step.finish = result :: finish) :
      Does kenv cfg run (.mainMPCProcess choice)
        { run.setStep i { step with finish } with pc := .stopping i result }
  | stops {choice : Choice} {i : Nat} {result : Option Err} {step : Step}
      (isPc : run.pc = .stopping i result) (found : run.ctx.mpcSteps[i]? = some step)
      (room : step.msgChan.length < step.capacity) :
      Does kenv cfg run (.mainMPCProcess choice)
        { run.setStep i { step with msgChan := step.msgChan ++ [none] } with
          pc := run.afterWait i result }
  | finishes {choice : Choice} {i : Nat} {step : Step} {body : StepBody} {mpcResult : BaseMpcResult}
      {srv : MpcDistributor} (isPc : run.pc = .finishStep i)
      (found : run.ctx.mpcSteps[i]? = some step)
      (finishes : step.body.finish kenv cfg run.srv run.ctx.peers run.ctx.mpcResult choice =
        .ok (body, mpcResult, srv)) :
      Does kenv cfg run (.mainMPCProcess choice) { run with
        srv
        ctx := { run.ctx with mpcResult, mpcSteps := run.ctx.mpcSteps.set i { step with body } }
        pc := .initStep (i + 1) }
  | fails {choice : Choice} {error : Err} {peerID : NodeID} {rest : List NodeID}
      (isPc : run.pc = .failing error (peerID :: rest)) :
      Does kenv cfg run (.mainMPCProcess choice) { run with
        sent := run.sent ++ [⟨peerID, .mpcError, ⟨run.ctx.contextID, 0, error.error, [], []⟩⟩]
        pc := .failing error rest }
  | quits {choice : Choice} {result : Option Err} (isPc : run.pc = .quit result)
      (first : run.ctx.bQuit = false) (unlocked : run.quitter = none) :
      Does kenv cfg run (.mainMPCProcess choice)
        { run with ctx := { run.ctx with bQuit := true }, pc := .quitting result 0 }
  | quitPuts {choice : Choice} {result : Option Err} {sends : Nat} {step step' : Step}
      (isPc : run.pc = .quitting result sends)
      (found : run.ctx.mpcSteps[sends / 2]? = some step) (put : step.QuitPut none sends step') :
      Does kenv cfg run (.mainMPCProcess choice)
        { run.setStep (sends / 2) step' with pc := .quitting result (sends + 1) }
  | loopStops {i : Nat} {step : Step} {rest : List (Option StepMessage)}
      (found : run.ctx.mpcSteps[i]? = some step) (loops : step.looping = true)
      (head : step.msgChan = none :: rest) :
      Does kenv cfg run (.messageLoop i)
        (run.setStep i { step with msgChan := rest, looping := false })
  | loopRounds {i : Nat} {step step' : Step} {msg : StepMessage}
      {rest : List (Option StepMessage)} (found : run.ctx.mpcSteps[i]? = some step)
      (loops : step.looping = true) (head : step.msgChan = some msg :: rest)
      (round : Step.Round run.ctx.peers step msg rest step') :
      Does kenv cfg run (.messageLoop i) (run.setStep i step')
  | loopPanics {i : Nat} : Does kenv cfg run (.messageLoop i) run.panic
  | arrives {sender : NodeID} {msg : MpcMessage} {step : Step}
      (isContext : msg.contextID = run.ctx.contextID)
      (found : run.ctx.mpcSteps[msg.stepID]? = some step)
      (room : step.msgChan.length < step.capacity) :
      Does kenv cfg run (.getMessage sender msg) (run.setStep msg.stepID { step with
        msgChan := step.msgChan ++ [some (stepMessage sender msg)] })
  | quitter {text : Bytes} (first : run.ctx.bQuit = false) :
      Does kenv cfg run (.quitMpcContext text)
        { run with ctx := { run.ctx with bQuit := true }, quitter := some (.new text, 0) }
  | quitterEnds {error : Err}
      (isQuitter : run.quitter = some (error, 2 * run.ctx.mpcSteps.length)) :
        Does kenv cfg run .quitterSend { run with quitter := none }
  | quitterPuts {error : Err} {sends : Nat} {step step' : Step}
      (isQuitter : run.quitter = some (error, sends))
      (found : run.ctx.mpcSteps[sends / 2]? = some step)
      (put : step.QuitPut (some error) sends step') :
      Does kenv cfg run .quitterSend
        { run.setStep (sends / 2) step' with quitter := some (error, sends + 1) }

/-! ### The moves are these -/

variable {kenv : KeyEnv} {cfg : Config} {run next : ContextRun}

theorem getMessage_does {sender : NodeID} {msg : MpcMessage}
    (got : run.getMessage sender msg = some next) :
    msg.contextID = run.ctx.contextID ∧ ∃ step, run.ctx.mpcSteps[msg.stepID]? = some step ∧
      step.msgChan.length < step.capacity ∧
      next = run.setStep msg.stepID { step with
        msgChan := step.msgChan ++ [some (stepMessage sender msg)] } := by
  unfold getMessage at got
  split at got
  next => cases got
  next isContext =>
    obtain ⟨ctx, put, rfl⟩ := Option.map_eq_some_iff.mp got
    obtain ⟨step, step', found, sent, rfl⟩ := MpcContext.onStep_eq_some put
    obtain ⟨room, rfl⟩ := Step.sendMessage_eq_some sent
    exact ⟨not_not.mp isContext, step, found, room, rfl⟩

theorem quitSend_does {ctx ctx' : MpcContext} {sends : Nat}
    (sent : ctx.quitSend result sends = some ctx') :
    ∃ step step', ctx.mpcSteps[sends / 2]? = some step ∧ step.QuitPut result sends step' ∧
      ctx' = { ctx with mpcSteps := ctx.mpcSteps.set (sends / 2) step' } := by
  obtain ⟨step, step', found, put, rfl⟩ := MpcContext.onStep_eq_some sent
  refine ⟨step, step', found, ?_, rfl⟩
  split at put
  next even =>
    obtain ⟨room, rfl⟩ := Step.sendMessage_eq_some put
    exact .message even room
  next odd =>
    unfold Step.sendFinish at put
    split at put
    next room =>
      cases put
      exact .finish (by omega) room
    next => cases put

theorem initMessageLoop_does (isPc : run.pc = .initMessageLoop i)
    (started : run.initMessageLoop i = some next) :
    Does kenv cfg run (.mainMPCProcess choice) next := by
  unfold initMessageLoop at started
  split at started
  next isEnd =>
    cases started
    exact .turns (.loopsStarted (isEnd ▸ isPc))
  next =>
    obtain ⟨ctx, begun, rfl⟩ := Option.map_eq_some_iff.mp started
    obtain ⟨step, step', found, act, rfl⟩ := MpcContext.onStep_eq_some begun
    unfold Step.initMessageLoop at act
    split at act
    next idle =>
      unfold Step.sendFinish at act
      split at act
      next room =>
        cases act
        exact .skipsLoop isPc found idle room
      next => cases act
    next waits =>
      cases act
      exact .startsLoop isPc found (by omega)

theorem initStep_does (isPc : run.pc = .initStep i)
    (inited : run.initStep kenv.toEnv choice.random i = some next) :
    Does kenv cfg run (.mainMPCProcess choice) next := by
  unfold initStep at inited
  split at inited
  next isEnd =>
    cases inited
    exact .turns (.stepsDone isPc isEnd)
  next step found =>
    obtain ⟨returned, inits, rfl⟩ := Option.map_eq_some_iff.mp inited
    split
    next => exact .turns (.panics (.inl isPc))
    next error => exact .turns (.initFails isPc found inits)
    next body peers =>
      simp only
      split
      next out creates => exact .inits isPc found inits creates
      next => exact .turns (.panics (.inl isPc))

theorem p2pMessage_does {rest : List Parcel} (isPc : run.pc = .sending i (parcel :: rest))
    (sent : run.p2pMessage parcel = some next) :
    Does kenv cfg run (.mainMPCProcess choice) { next with pc := .sending i rest } := by
  simp only [p2pMessage] at sent
  split at sent
  next own =>
    obtain ⟨isContext, step, found, room, rfl⟩ := getMessage_does sent
    exact .sendsOwn isPc own isContext found room
  next away =>
    cases sent
    exact .sends isPc away

theorem waitFinish_does (isPc : run.pc = .waiting i)
    (waited : run.waitFinish choice.timeOut i = some next) :
    Does kenv cfg run (.mainMPCProcess choice) next := by
  unfold waitFinish at waited
  split at waited
  next => cases waited
  next step found =>
    split at waited
    next late =>
      cases waited
      exact .turns (.timesOut isPc found late)
    next inTime =>
      split at waited
      next => cases waited
      next result finish head =>
        cases waited
        exact .waits isPc found (by simpa using inTime) head

theorem stopLoop_does (isPc : run.pc = .stopping i result)
    (stopped : run.stopLoop i result = some next) :
    Does kenv cfg run (.mainMPCProcess choice) next := by
  obtain ⟨ctx, put, rfl⟩ := Option.map_eq_some_iff.mp stopped
  obtain ⟨step, step', found, sent, rfl⟩ := MpcContext.onStep_eq_some put
  obtain ⟨room, rfl⟩ := Step.sendMessage_eq_some sent
  have does : Does kenv cfg run (.mainMPCProcess choice) _ := .stops isPc found room
  cases result with
  | none => exact does
  | some error => exact does

theorem finishStep_does (isPc : run.pc = .finishStep i)
    (finished : run.finishStep kenv cfg choice i = some next) :
    Does kenv cfg run (.mainMPCProcess choice) next := by
  unfold finishStep at finished
  split at finished
  next => cases finished
  next step found =>
    split at finished
    next =>
      cases finished
      exact .turns (.panics (.inr isPc))
    next error fails =>
      cases finished
      exact .turns (.finishFails isPc found fails)
    next body mpcResult srv finishes =>
      cases finished
      exact .finishes isPc found finishes

theorem mainMPCProcess_does (moved : run.mainMPCProcess kenv cfg choice = some next) :
    Does kenv cfg run (.mainMPCProcess choice) next := by
  unfold mainMPCProcess at moved
  split at moved
  next i isPc => exact initMessageLoop_does isPc moved
  next i isPc => exact initStep_does isPc moved
  next i isPc =>
    cases moved
    exact .turns (.parcelsSent isPc)
  next i parcel rest isPc =>
    obtain ⟨after, sent, rfl⟩ := Option.map_eq_some_iff.mp moved
    exact p2pMessage_does isPc sent
  next i isPc => exact waitFinish_does isPc moved
  next i result isPc => exact stopLoop_does isPc moved
  next i isPc => exact finishStep_does isPc moved
  next error isPc =>
    cases moved
    exact .turns (.errorSent isPc)
  next error peerID rest isPc =>
    obtain ⟨after, sent, rfl⟩ := Option.map_eq_some_iff.mp moved
    -- an error is nothing that a node would get from itself
    have away : ¬(peerID = run.srv.self ∧ MsgCode.mpcError = .mpcMessage) := by simp
    simp only [p2pMessage, if_neg away] at sent
    cases sent
    exact .fails isPc
  next result isPc =>
    split at moved
    next => cases moved
    next unlocked =>
      have free : run.quitter = none := by simpa using unlocked
      split at moved
      next quits =>
        cases moved
        exact .turns (.hasQuit isPc quits free)
      next first =>
        cases moved
        exact .quits isPc (by simpa using first) free
  next result sends isPc =>
    split at moved
    next isEnd =>
      cases moved
      exact .turns (.quitEnds (isEnd ▸ isPc))
    next =>
      obtain ⟨ctx, sent, rfl⟩ := Option.map_eq_some_iff.mp moved
      obtain ⟨step, step', found, put, rfl⟩ := quitSend_does sent
      exact .quitPuts isPc found put
  next => cases moved
  next => cases moved

theorem messageLoop_does (looped : run.messageLoop i = some next) :
    Does kenv cfg run (.messageLoop i) next := by
  unfold messageLoop at looped
  split at looped
  next => cases looped
  next step found =>
    obtain ⟨outcome, handled, rfl⟩ := Option.map_eq_some_iff.mp looped
    cases outcome with
    | err | panic => exact .loopPanics
    | ok step' =>
      cases loops : step.looping with
      | false => simp [Step.handleMessage, loops] at handled
      | true =>
        match head : step.msgChan with
        | [] => simp [Step.handleMessage, loops, head] at handled
        | none :: rest =>
          simp only [Step.handleMessage, loops, head, Option.some.injEq, Outcome.ok.injEq]
            at handled
          subst handled
          exact .loopStops found loops head
        | some msg :: rest =>
          exact .loopRounds found loops head ((Step.handleMessage_eq_ok_iff loops head).mp handled)

/-- Whatever happens on the node is one of the moves. -/
theorem step_does (stepped : run.step kenv cfg action = some next) :
    Does kenv cfg run action next := by
  unfold step at stepped
  split at stepped
  next => cases stepped
  next =>
    cases action with
    | mainMPCProcess choice => exact mainMPCProcess_does stepped
    | messageLoop i => exact messageLoop_does stepped
    | getMessage sender msg =>
      obtain ⟨isContext, step, found, room, rfl⟩ := getMessage_does stepped
      exact .arrives isContext found room
    | quitMpcContext text =>
      simp only [quitMpcContext] at stepped
      split at stepped
      next => cases stepped
      next first =>
        cases stepped
        exact .quitter (by simpa using first)
    | quitterSend =>
      simp only [quitterSend] at stepped
      split at stepped
      next => cases stepped
      next error sends isQuitter =>
        split at stepped
        next isEnd =>
          cases stepped
          exact .quitterEnds (isEnd ▸ isQuitter)
        next =>
          obtain ⟨ctx, sent, rfl⟩ := Option.map_eq_some_iff.mp stepped
          obtain ⟨step, step', found, put, rfl⟩ := quitSend_does sent
          exact .quitterPuts isQuitter found put

/-! ### Parcels -/

theorem stepID_of_parcels {srv : MpcDistributor} {contextID : Nat} {peers : List PeerInfo}
    {item : OutMessage} (member : parcel ∈ parcels srv contextID i peers item) :
    parcel.msg.stepID = i := by
  unfold parcels at member
  split at member
  · obtain rfl := List.mem_singleton.mp member
    rfl
  · obtain ⟨_, -, rfl⟩ := List.mem_map.mp member
    rfl

/-- The parcels that are being sent belong to the step that the main process is in. -/
def Addressed (run : ContextRun) : Prop :=
  ∀ i parcels, run.pc = .sending i parcels → ∀ parcel ∈ parcels, parcel.msg.stepID = i

theorem Does.addressed (does : Does kenv cfg run action next) (addressed : run.Addressed) :
    next.Addressed := by
  cases does with
  | turns turn =>
    intro i parcels isPc
    cases turn <;> cases isPc
  | startsLoop | skipsLoop | waits | finishes | fails | quits | quitPuts | loopPanics =>
    rintro i parcels ⟨⟩
  | @stops _ _ result =>
    intro i parcels isPc
    cases result <;> cases isPc
  | inits =>
    rintro i parcels ⟨⟩ parcel member
    obtain ⟨item, -, isParcel⟩ := List.mem_flatMap.mp member
    exact stepID_of_parcels isParcel
  | sends isPc | sendsOwn isPc =>
    rintro i parcels ⟨⟩ parcel member
    exact addressed _ _ isPc parcel (List.mem_cons_of_mem _ member)
  | loopStops | loopRounds | arrives | quitter | quitterEnds | quitterPuts => exact addressed

theorem Does.sent_cases (does : Does kenv cfg run action next) (sent : parcel ∈ next.sent) :
    parcel ∈ run.sent ∨ parcel.msgCode = .mpcError ∨
      ∃ i rest, run.pc = .sending i (parcel :: rest) ∧ next.pc = .sending i rest := by
  cases does with
  | sends isPc | sendsOwn isPc =>
    rcases List.mem_append.mp sent with old | new
    · exact .inl old
    · obtain rfl := List.mem_singleton.mp new
      exact .inr (.inr ⟨_, _, isPc, rfl⟩)
  | fails isPc =>
    rcases List.mem_append.mp sent with old | new
    · exact .inl old
    · obtain rfl := List.mem_singleton.mp new
      exact .inr (.inl rfl)
  | turns | startsLoop | skipsLoop | inits | waits | stops | finishes | quits | quitPuts =>
    exact .inl sent
  | loopStops | loopRounds | loopPanics | arrives | quitter | quitterEnds | quitterPuts =>
    exact .inl sent

/-! ### What no move changes -/

section

variable (does : Does kenv cfg run action next)

include does

theorem Does.length : next.ctx.mpcSteps.length = run.ctx.mpcSteps.length := by
  cases does <;> simp [panic]

theorem Does.contextID : next.ctx.contextID = run.ctx.contextID := by
  cases does <;> rfl

theorem Does.self : next.srv.self = run.srv.self := by
  cases does with
  | finishes isPc found finishes =>
    obtain ⟨_, rfl⟩ := StepBody.finish_srv finishes
    rfl
  | _ => rfl

/-- What the move behind a step has done. -/
theorem Does.finished (isPc : run.pc = .finishStep i) (isNext : next.pc = .initStep (i + 1)) :
    ∃ choice step body store srv, action = .mainMPCProcess choice ∧
      run.ctx.mpcSteps[i]? = some step ∧
      step.body.finish kenv cfg run.srv run.ctx.peers run.ctx.mpcResult choice =
        .ok (body, store, srv) ∧ next.ctx.mpcResult = store := by
  cases does with
  | @finishes choice j step body store srv wasPc found finishes =>
    cases wasPc.symm.trans isPc
    exact ⟨choice, step, body, store, srv, rfl, found, finishes, rfl⟩
  | turns turn =>
    cases turn with
    | loopsStarted wasPc => cases wasPc.symm.trans isPc
    | stepsDone | initFails | parcelsSent | timesOut | finishFails | errorSent | hasQuit | quitEnds
    | panics => cases isNext
  | startsLoop | skipsLoop | inits | sends | sendsOwn | waits | fails | quits | quitPuts
  | loopPanics => cases isNext
  | @stops _ _ result => cases result <;> cases isNext
  | loopStops | loopRounds | arrives | quitter | quitterEnds | quitterPuts =>
    cases isPc.symm.trans isNext

end

/-! ### What becomes of one step -/

/-- A move leaves the data and the counter of a step, or it is one of these three. -/
inductive Becomes (kenv : KeyEnv) (cfg : Config) (run : ContextRun) (i : Nat) (step : Step) :
    Step → Prop where
  | quiet (msgChan : List (Option StepMessage)) (finish : List (Option Err)) (looping : Bool) :
      Becomes kenv cfg run i step { step with msgChan, finish, looping }
  | inits {random : Randomness} {body : StepBody} {peers : List PeerInfo}
      (isPc : run.pc = .initStep i)
      (inits : step.body.initStep kenv.toEnv run.ctx.peers run.ctx.mpcResult random =
        some (.ok (body, peers))) : Becomes kenv cfg run i step { step with body }
  | finishes {choice : Choice} {body : StepBody} {mpcResult : BaseMpcResult}
      {srv : MpcDistributor} (isPc : run.pc = .finishStep i)
      (finishes : step.body.finish kenv cfg run.srv run.ctx.peers run.ctx.mpcResult choice =
        .ok (body, mpcResult, srv)) : Becomes kenv cfg run i step { step with body }
  | rounds {msg : StepMessage} {rest : List (Option StepMessage)} {step' : Step}
      (loops : step.looping = true) (head : step.msgChan = some msg :: rest)
      (round : Step.Round run.ctx.peers step msg rest step') : Becomes kenv cfg run i step step'

theorem becomes_of_set {step : Step} (found : steps[j]? = some step)
    (becomes : run.Becomes kenv cfg j step step') (here : (steps.set j step')[i]? = some after) :
    ∃ before, steps[i]? = some before ∧ run.Becomes kenv cfg i before after := by
  rcases getElem?_set_cases here with ⟨rfl, rfl⟩ | old
  · exact ⟨step, found, becomes⟩
  · exact ⟨after, old, .quiet _ _ _⟩

theorem Does.becomes (does : Does kenv cfg run action next)
    (here : next.ctx.mpcSteps[i]? = some after) :
    ∃ before, run.ctx.mpcSteps[i]? = some before ∧ run.Becomes kenv cfg i before after := by
  cases does with
  | turns | sends | fails | quits | loopPanics | quitter | quitterEnds =>
    exact ⟨after, here, .quiet _ _ _⟩
  | startsLoop _ found | skipsLoop _ found | sendsOwn _ _ _ found | waits _ found | stops _ found
  | loopStops found | arrives _ found => exact becomes_of_set found (.quiet _ _ _) here
  | inits isPc found inits => exact becomes_of_set found (.inits isPc inits) here
  | finishes isPc found finishes => exact becomes_of_set found (.finishes isPc finishes) here
  | loopRounds found loops head round =>
    exact becomes_of_set found (.rounds loops head round) here
  | quitPuts _ found put | quitterPuts _ found put =>
    cases put with
    | message | finish => exact becomes_of_set found (.quiet _ _ _) here

theorem Becomes.waiting_le {step : Step} (becomes : run.Becomes kenv cfg i step step') :
    step'.waiting ≤ step.waiting := by
  cases becomes with
  | quiet | inits | finishes => exact le_rfl
  | rounds loops head round =>
    cases round with
    | ignored | refused => exact le_rfl
    | accepted => exact Int.sub_le_self _ (by omega)
    | last _ waits => simp [waits]

end ContextRun

/-! ### Runs with their arrivals -/

/-- The message that comes in. -/
def Action.arrival : Action → List (NodeID × MpcMessage)
  | .getMessage sender msg => [(sender, msg)]
  | _ => []

namespace ContextRun

/-- A run whose moves all meet a condition, with the messages that have arrived. -/
inductive Runs (kenv : KeyEnv) (cfg : Config) (Meets : ContextRun → Action → Prop)
    (start : ContextRun) : List (NodeID × MpcMessage) → ContextRun → Prop where
  | start : Runs kenv cfg Meets start [] start
  | move {heard : List (NodeID × MpcMessage)} {run next : ContextRun} {action : Action}
      (before : Runs kenv cfg Meets start heard run)
      (permits : run.Permits (fun _ _ => True) action) (meets : Meets run action)
      (stepped : run.step kenv cfg action = some next) :
      Runs kenv cfg Meets start (heard ++ action.arrival) next

variable {kenv : KeyEnv} {cfg : Config} {Meets : ContextRun → Action → Prop}
  {start run : ContextRun} {heard : List (NodeID × MpcMessage)}

/-- Induction over a run, move by move. -/
theorem Runs.invariant (Inv : List (NodeID × MpcMessage) → ContextRun → Prop)
    (initially : Inv [] start)
    (moves : ∀ heard run action next, Runs kenv cfg Meets start heard run → Inv heard run →
      run.Permits (fun _ _ => True) action → Meets run action → Does kenv cfg run action next →
      Inv (heard ++ action.arrival) next)
    (runs : Runs kenv cfg Meets start heard run) : Inv heard run := by
  induction runs with
  | start => exact initially
  | move before permits meets stepped ih =>
    exact moves _ _ _ _ before ih permits meets (step_does stepped)

theorem Permits.mono (permits : run.Permits few action)
    (more : ∀ sender msg, action = .getMessage sender msg → many sender msg) :
    run.Permits many action := by
  cases action with
  | getMessage sender msg => exact more sender msg rfl
  | mainMPCProcess | messageLoop | quitMpcContext | quitterSend => exact permits

/-- A move that meets the condition, among the messages that can arrive. -/
def Within (Meets : ContextRun → Action → Prop) (kenv : KeyEnv) (cfg : Config)
    (arrives : NodeID → MpcMessage → Prop) (run next : ContextRun) : Prop :=
  ∃ action, run.Permits arrives action ∧ Meets run action ∧ run.step kenv cfg action = some next

theorem Within.mono (more : ∀ sender msg, few sender msg → many sender msg)
    (within : Within Meets kenv cfg few run next) : Within Meets kenv cfg many run next := by
  obtain ⟨action, permits, meets, stepped⟩ := within
  refine ⟨action, permits.mono fun sender msg same => ?_, meets, stepped⟩
  subst same
  exact more sender msg permits

theorem Within.moves (within : Within Meets kenv cfg arrives run next) :
    Moves kenv cfg arrives run next := by
  obtain ⟨action, permits, -, stepped⟩ := within
  exact ⟨action, permits, stepped⟩

theorem Runs.within (runs : Runs kenv cfg Meets start heard run) :
    Relation.ReflTransGen (Within Meets kenv cfg fun sender msg => (sender, msg) ∈ heard)
      start run := by
  induction runs with
  | start => exact .refl
  | @move heard run next action _ permits meets stepped ih =>
    refine .tail (Relation.ReflTransGen.mono ?_ _ _ ih) ⟨action, permits.mono ?_, meets, stepped⟩
    · exact fun _ _ => Within.mono fun sender msg was => List.mem_append_left _ was
    · rintro sender msg rfl
      exact List.mem_append_right _ (List.mem_singleton_self _)

/-- Take the actions one after the other, as long as each meets the condition. -/
def replay (kenv : KeyEnv) (cfg : Config) (Meets : ContextRun → Action → Prop)
    [∀ run action, Decidable (Meets run action)] : List Action → ContextRun → Option ContextRun
  | [], run => some run
  | action :: actions, run =>
    if run.Permits (fun _ _ => true = true) action ∧ Meets run action then
      match run.step kenv cfg action with
      | some next => replay kenv cfg Meets actions next
      | none => none
    else none

theorem Runs.replay [∀ run action, Decidable (Meets run action)] {final : ContextRun}
    (runs : Runs kenv cfg Meets start heard run)
    (replayed : ContextRun.replay kenv cfg Meets actions run = some final) :
    Runs kenv cfg Meets start (heard ++ actions.flatMap Action.arrival) final := by
  induction actions generalizing run heard with
  | nil =>
    cases replayed
    rwa [List.flatMap_nil, List.append_nil]
  | cons action actions ih =>
    unfold ContextRun.replay at replayed
    split at replayed
    next allowed =>
      split at replayed
      next next stepped =>
        rw [List.flatMap_cons, ← List.append_assoc]
        exact ih (.move runs (allowed.1.mono fun _ _ _ => trivial) allowed.2 stepped) replayed
      next => cases replayed
    next => cases replayed

/-- A replay is a run among the messages that its condition lets in. -/
theorem within_of_replay {Few : ContextRun → Action → Prop}
    [∀ run action, Decidable (Few run action)]
    (meets : ∀ run action, Few run action → Meets run action)
    (comes : ∀ run sender msg, Few run (.getMessage sender msg) → arrives sender msg)
    {final : ContextRun} (replayed : ContextRun.replay kenv cfg Few actions run = some final) :
    Relation.ReflTransGen (Within Meets kenv cfg arrives) run final := by
  induction actions generalizing run with
  | nil =>
    cases replayed
    exact .refl
  | cons action actions ih =>
    unfold ContextRun.replay at replayed
    split at replayed
    next allowed =>
      split at replayed
      next next stepped =>
        refine .head ⟨action, allowed.1.mono ?_, meets run action allowed.2, stepped⟩ (ih replayed)
        rintro sender msg rfl
        exact comes run sender msg allowed.2
      next => cases replayed
    next => cases replayed

end ContextRun
end SchnorrMpc
