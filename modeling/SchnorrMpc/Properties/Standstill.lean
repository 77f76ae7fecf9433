import SchnorrMpc.Mpc.Deployment
import SchnorrMpc.Properties.Posting

/-!
# Runs that have come to a standstill

A run in which no peer has failed stands still only at its end, or where a step
waits for messages that have not come.

## Main results

* `ContextRun.Does.alert`: a step that is still to be waited for is told, or reads its messages.
* `ContextRun.Orderly.standstill`: where a run can stand still.
-/
namespace SchnorrMpc

open Lib

/-- The index of the main process is one of the steps. -/
def Pc.Placed (length : Nat) : Pc → Prop
  | .initMessageLoop i | .initStep i => i ≤ length
  | .sending i _ | .waiting i | .stopping i _ | .finishStep i => i < length
  | .quitting _ sends => sends ≤ 2 * length
  | .failing _ _ | .quit _ | .returned _ | .panicked => True

namespace ContextRun

/-- In time, with the seeds drawn and room for what comes in, and nobody tells of an error. -/
def Steady (run : ContextRun) : Action → Prop
  | .quitMpcContext _ => False
  | action => run.Prompt action ∧ run.Modest action

variable {kenv : KeyEnv} {cfg : Config} {run next : ContextRun} {action : Action} {k : Nat}

theorem Steady.prompt (steady : run.Steady action) : run.Prompt action := by
  cases action with
  | quitMpcContext => exact steady.elim
  | mainMPCProcess | messageLoop | getMessage | quitterSend => exact steady.1

theorem Steady.modest (steady : run.Steady action) : run.Modest action := by
  cases action with
  | quitMpcContext => exact steady.elim
  | mainMPCProcess | messageLoop | getMessage | quitterSend => exact steady.2

theorem Does.placed (does : Does kenv cfg run action next)
    (placed : run.pc.Placed run.ctx.mpcSteps.length) :
    next.pc.Placed next.ctx.mpcSteps.length := by
  have inside {i : Nat} {step : Step} (found : run.ctx.mpcSteps[i]? = some step) :
      i < run.ctx.mpcSteps.length := (List.getElem?_eq_some_iff.mp found).1
  rw [does.length]
  cases does with
  | turns turn =>
    cases turn with
    | loopsStarted => exact Nat.zero_le _
    | parcelsSent isPc | timesOut isPc =>
      rw [isPc] at placed
      exact placed
    | stepsDone | initFails | finishFails | errorSent | hasQuit | quitEnds | panics => trivial
  | startsLoop isPc found | skipsLoop isPc found | finishes isPc found => exact inside found
  | inits isPc found | waits isPc found => exact inside found
  | sends isPc | sendsOwn isPc =>
    rw [isPc] at placed
    exact placed
  | @stops _ _ result _ isPc found =>
    cases result with
    | none => exact inside found
    | some => trivial
  | fails | loopPanics => trivial
  | quits => exact Nat.zero_le _
  | quitPuts isPc found =>
    have := inside found
    simp only [Pc.Placed]
    omega
  | loopStops | loopRounds | arrives | quitter | quitterEnds | quitterPuts => exact placed

end ContextRun

/-- The loop of the step has not been told to stop; once it has begun, it reads what comes, or the
main process has been told that there is nothing to wait for. -/
structure Step.Alert (begun : Bool) (step : Step) : Prop where
  unmarked : none ∉ step.msgChan
  told : begun = true → step.waiting ≤ 0 → step.finish ≠ []
  reads : begun = true → 0 < step.waiting → step.looping = true

namespace ContextRun

variable {kenv : KeyEnv} {cfg : Config} {run next : ContextRun} {action : Action} {k : Nat}

/-- Every step that is still to be waited for is alert. -/
def Alert (k : Nat) (run : ContextRun) : Prop :=
  ∀ step, run.ctx.mpcSteps[k]? = some step → run.pc.Before k → step.Alert (run.pc.begun k)

theorem begun_of_ne {pc : Pc} (elsewhere : ∀ i, pc ≠ .initMessageLoop i) : pc.begun k = true := by
  cases pc with
  | initMessageLoop i => exact absurd rfl (elsewhere i)
  | _ => rfl

theorem Does.alert (does : Does kenv cfg run action next) (steady : run.Steady action)
    (unlocked : run.quitter = none) (alert : run.Alert k) : next.Alert k := by
  intro step' here isBefore
  have wasBefore := does.before isBefore
  -- the main process is behind the start of the loops
  have stays {step : Step} (found : run.ctx.mpcSteps[k]? = some step)
      (elsewhere : ∀ i, run.pc ≠ .initMessageLoop i) (begun : Bool) : step.Alert begun := by
    have was := alert step found wasBefore
    rw [begun_of_ne elsewhere] at was
    exact ⟨was.unmarked, fun _ => was.told rfl, fun _ => was.reads rfl⟩
  -- another loop is started
  have earlier {i : Nat} (isPc : run.pc = .initMessageLoop i) (other : i ≠ k)
      (old : run.ctx.mpcSteps[k]? = some step') :
      step'.Alert (Pc.begun k (.initMessageLoop (i + 1))) := by
    have was := alert step' old wasBefore
    rw [isPc] at was
    have same : Pc.begun k (.initMessageLoop (i + 1)) = Pc.begun k (.initMessageLoop i) := by
      simp only [Pc.begun, decide_eq_decide]
      omega
    rw [same]
    exact was
  cases does with
  | turns turn =>
    cases turn with
    | loopsStarted isPc =>
      have was := alert step' here wasBefore
      rw [isPc, Pc.begun, decide_eq_true (List.getElem?_eq_some_iff.mp here).1] at was
      exact was
    | parcelsSent isPc | timesOut isPc => exact stays here (by simp [isPc]) _
    | stepsDone | initFails | finishFails | errorSent | hasQuit | quitEnds | panics =>
      exact isBefore.elim
  | sends isPc => exact stays here (by simp [isPc]) _
  | fails | quits | quitPuts | loopPanics => exact isBefore.elim
  | @startsLoop choice i step isPc found waits =>
    -- a loop is only started for a step that still waits
    rcases getElem?_set_cases_ne here with ⟨rfl, rfl⟩ | ⟨other, old⟩
    · have was := alert step found wasBefore
      exact ⟨was.unmarked, fun _ down => absurd waits (not_lt.mpr down), fun _ _ => rfl⟩
    · exact earlier isPc other old
  | @skipsLoop choice i step isPc found idle room =>
    -- a step that waits for nobody gets its nil at once
    rcases getElem?_set_cases_ne here with ⟨rfl, rfl⟩ | ⟨other, old⟩
    · have was := alert step found wasBefore
      exact ⟨was.unmarked, fun _ _ => by simp, fun _ up => absurd up (not_lt.mpr idle)⟩
    · exact earlier isPc other old
  | inits isPc found =>
    rcases getElem?_set_cases here with ⟨rfl, rfl⟩ | old
    · have was := stays found (by simp [isPc]) true
      exact ⟨was.unmarked, was.told, was.reads⟩
    · exact stays old (by simp [isPc]) _
  | sendsOwn isPc own isContext found =>
    rcases getElem?_set_cases here with ⟨rfl, rfl⟩ | old
    · have was := stays found (by simp [isPc]) true
      exact ⟨by simpa using was.unmarked, was.told, was.reads⟩
    · exact stays old (by simp [isPc]) _
  | @waits choice i step result finish isPc found =>
    rcases getElem?_set_cases here with ⟨rfl, rfl⟩ | old
    -- once its result is read, the step is waited for no more
    · exact absurd isBefore (lt_irrefl i)
    · exact stays old (by simp [isPc]) _
  | @stops choice i result step isPc found =>
    rcases getElem?_set_cases here with ⟨rfl, rfl⟩ | old
    · cases result with
      | none => exact absurd isBefore (lt_irrefl i)
      | some => exact isBefore.elim
    · exact stays old (by simp [isPc]) _
  | finishes isPc found =>
    rcases getElem?_set_cases here with ⟨rfl, rfl⟩ | old
    · have was := stays found (by simp [isPc]) true
      exact ⟨was.unmarked, was.told, was.reads⟩
    · exact stays old (by simp [isPc]) _
  | loopStops found loops head =>
    rcases getElem?_set_cases here with ⟨rfl, rfl⟩ | old
    · have was := alert _ found wasBefore
      exact absurd (head ▸ List.mem_cons_self) was.unmarked
    · exact alert step' old wasBefore
  | @loopRounds i step _ msg rest found loops head round =>
    rcases getElem?_set_cases here with ⟨rfl, rfl⟩ | old
    · have was := alert step found wasBefore
      have unmarked : none ∉ rest := fun marked =>
        was.unmarked (head ▸ List.mem_cons_of_mem _ marked)
      cases round with
      | ignored | refused => exact ⟨unmarked, was.told, was.reads⟩
      | accepted same waits =>
        exact ⟨unmarked, fun _ down => by simp only at down; omega, fun _ _ => loops⟩
      | last => exact ⟨unmarked, fun _ _ => by simp, fun _ up => by simp at up⟩
    · exact alert step' old wasBefore
  | arrives isContext found =>
    rcases getElem?_set_cases here with ⟨rfl, rfl⟩ | old
    · have was := alert _ found wasBefore
      exact ⟨by simpa using was.unmarked, was.told, was.reads⟩
    · exact alert step' old wasBefore
  | quitter => exact steady.elim
  | quitterEnds => exact alert step' here isBefore
  | quitterPuts isQuitter => cases unlocked.symm.trans isQuitter

/-- What a run keeps in which no peer fails. -/
structure Orderly (run : ContextRun) : Prop where
  flows : run.Flows
  unlocked : run.quitter = none
  placed : run.pc.Placed run.ctx.mpcSteps.length
  alert : ∀ k, run.Alert k

theorem Does.orderly (does : Does kenv cfg run action next)
    (permits : run.Permits (fun _ _ => True) action) (steady : run.Steady action)
    (orderly : run.Orderly) : next.Orderly := by
  obtain ⟨flows, unlocked, placed, alert⟩ := orderly
  refine ⟨⟨does.locks flows.locks, does.posts permits flows.posts,
    does.roomy permits steady.modest flows.locks flows.posts flows.roomy⟩, ?_, does.placed placed,
    fun k => does.alert steady unlocked (alert k)⟩
  cases does with
  | quitter => exact steady.elim
  | quitterEnds => rfl
  | quitterPuts isQuitter => cases unlocked.symm.trans isQuitter
  | _ => exact unlocked

theorem Runs.mono {Meets Weaker : ContextRun → Action → Prop} {start : ContextRun}
    {heard : List (NodeID × MpcMessage)}
    (weaker : ∀ run action, Meets run action → Weaker run action)
    (runs : Runs kenv cfg Meets start heard run) : Runs kenv cfg Weaker start heard run := by
  induction runs with
  | start => exact .start
  | move before permits meets stepped ih => exact .move ih permits (weaker _ _ meets) stepped

/-- So it is from the start. -/
theorem Runs.orderly {ctxType : CtxType} {mpcID : Nat} {peers : List PeerInfo}
    {preSetValue : List MpcValue} {ctx : MpcContext} {srv : MpcDistributor}
    {heard : List (NodeID × MpcMessage)}
    (created : createContext cfg ctxType mpcID peers preSetValue = .ok ctx)
    (once : (peers.map PeerInfo.peerID).count srv.self ≤ 1)
    (runs : Runs kenv cfg Steady (.start srv ctx) heard run) : run.Orderly := by
  refine runs.invariant (fun _ run => run.Orderly) ?_ ?_
  · refine ⟨flows_of_createContext created once, rfl, Nat.zero_le _, fun k step found _ => ?_⟩
    have unused := unused_of_createContext created step (List.mem_of_getElem? found)
    have early : Pc.begun k (ContextRun.start srv ctx).pc ≠ true := by
      simp [ContextRun.start, Pc.begun]
    exact ⟨by simp [unused.msgChan], fun begun => absurd begun early,
      fun begun => absurd begun early⟩
  · intro heard run action next _ before permits steady does
    exact does.orderly permits steady before

/-! ### Where a run can stand still -/

/-- Nothing that the run does by itself can happen. -/
def Still (kenv : KeyEnv) (cfg : Config) (run : ContextRun) : Prop :=
  ∀ action : Action, action.Internal → run.Permits (fun _ _ => True) action →
    run.step kenv cfg action = none

theorem Orderly.msgChan_eq_nil (orderly : run.Orderly) (sound : ¬run.pc.Failed)
    (still : run.Still kenv cfg)
    {step : Step} (found : run.ctx.mpcSteps[k]? = some step) (loops : step.looping = true) :
    step.msgChan = [] := by
  by_contra nonempty
  have roomy := orderly.flows.roomy k step found
  have handled : step.handleMessage run.ctx.peers ≠ none := by
    refine Step.handleMessage_isSome loops nonempty fun one => ?_
    exact roomy.finish_lt (quitSent_le_one ..)
  refine handled ?_
  have nothing := still (.messageLoop k) trivial trivial
  have alive : run.pc ≠ .panicked := by
    intro isPc
    rw [isPc] at sound
    exact sound trivial
  simpa [ContextRun.step, alive, messageLoop, found] using nothing

theorem Orderly.room (orderly : run.Orderly) (sound : ¬run.pc.Failed) (still : run.Still kenv cfg)
    {step : Step} (found : run.ctx.mpcSteps[k]? = some step) (puts : run.PutsMessage k) :
    step.msgChan.length < step.capacity := by
  by_contra full
  by_cases loops : step.looping = true
  · have empty := orderly.msgChan_eq_nil sound still found loops
    rw [empty, (orderly.flows.roomy k step found).capacity] at full
    simp at full
  · refine orderly.flows.not_wedged ⟨k, step, found, .inl ⟨puts, not_lt.mp full, .inl ?_⟩⟩
    simpa using loops

theorem exists_iterates (body : StepBody) : ∃ orders, body.Iterates orders := by
  cases body with
  | skShare poly | rskShare poly => exact ⟨⟨[poly.message], []⟩, poly.message, rfl, .refl _⟩
  | gpk ptStep | r ptStep =>
    refine ⟨⟨[], ptStep.messages.map MpcPointGenerator.message⟩, ?_⟩
    simp [StepBody.Iterates, List.forall₂_map_left_iff, List.forall₂_same]
  | s msStep =>
    refine ⟨⟨msStep.messages.map MpcSGenerator.message, []⟩, ?_⟩
    simp [StepBody.Iterates, List.forall₂_map_left_iff, List.forall₂_same]
  | request | ackMpc | ready | getReady | ackGPK | ackRS => exact ⟨⟨[], []⟩, trivial⟩

def punctualChoice (random : Randomness) (orders : Orders) : Choice :=
  ⟨random, orders, false, ⟨[], ⟨[], []⟩, ⟨[], []⟩, [], .ok ()⟩⟩

theorem Still.main (still : run.Still kenv cfg) (sound : ¬run.pc.Failed) (random : Randomness)
    (orders : Orders)
    (permits : run.Permits (fun _ _ => True) (.mainMPCProcess (punctualChoice random orders))) :
    run.mainMPCProcess kenv cfg (punctualChoice random orders) = none := by
  have alive : run.pc ≠ .panicked := by
    intro isPc
    rw [isPc] at sound
    exact sound trivial
  have nothing := still (.mainMPCProcess (punctualChoice random orders)) rfl permits
  rwa [ContextRun.step, if_neg alive] at nothing

/-- A run stands still at its end, or where a step waits for what has not come. -/
theorem Orderly.standstill {leader : Bool} {srv : MpcDistributor} (orderly : run.Orderly)
    (content : run.Content leader srv)
    (kinds : (run.ctx.mpcSteps.map Step.body).map StepBody.kind = gpkKinds leader)
    (few : run.ctx.peers.length ≤ 0x0FFFFFE) (sound : ¬run.pc.Failed)
    (still : run.Still kenv cfg) :
    run.pc = .returned none ∨ ∃ i step, run.pc = .waiting i ∧ run.ctx.mpcSteps[i]? = some step ∧
      step.finish = [] := by
  have placed := orderly.placed
  have unwedged := orderly.flows.not_wedged
  have found {i : Nat} (inside : i < run.ctx.mpcSteps.length) :
      ∃ step, run.ctx.mpcSteps[i]? = some step := ⟨_, List.getElem?_eq_getElem inside⟩
  -- away from `InitStep` and `FinishStep` nothing depends on the choice
  have main (plain : ∀ i, run.pc ≠ .initStep i ∧ run.pc ≠ .finishStep i) :
      run.mainMPCProcess kenv cfg (punctualChoice ⟨.ok 0, [], []⟩ ⟨[], []⟩) = none := by
    refine still.main sound _ _ ?_
    cases isPc : run.pc with
    | initStep i => exact absurd isPc (plain i).1
    | finishStep i => exact absurd isPc (plain i).2
    | _ => simp [Permits, isPc]
  cases isPc : run.pc with
  | initMessageLoop i =>
    exfalso
    have nothing := main (by simp [isPc])
    rw [isPc] at placed
    by_cases isEnd : i = run.ctx.mpcSteps.length
    · simp [mainMPCProcess, isPc, initMessageLoop, isEnd] at nothing
    · obtain ⟨step, isStep⟩ := found (lt_of_le_of_ne placed isEnd)
      -- a full channel would wedge the loop
      have room : step.finish.length < 3 := by
        by_contra full
        exact unwedged ⟨i, step, isStep, .inr ⟨.loop isPc, not_lt.mp full⟩⟩
      by_cases idle : step.waiting ≤ 0
      · simp [mainMPCProcess, isPc, initMessageLoop, isEnd, MpcContext.onStep, isStep,
          Step.initMessageLoop, idle, Step.sendFinish, room] at nothing
      · simp [mainMPCProcess, isPc, initMessageLoop, isEnd, MpcContext.onStep, isStep,
          Step.initMessageLoop, idle] at nothing
  | initStep i =>
    exfalso
    -- enough different numbers lead out of the loop, and then the process goes on
    have moves {random : Randomness} (admissible : random.Admissible) :
        run.initStep kenv.toEnv random i = none := by
      have nothing := still.main sound random ⟨[], []⟩
        (by simpa [Permits, isPc, punctualChoice] using admissible)
      simpa [mainMPCProcess, isPc, punctualChoice] using nothing
    cases isStep : run.ctx.mpcSteps[i]? with
    | none =>
      obtain ⟨random, admissible, -⟩ :=
        StepBody.exists_initStep kenv.toEnv .ready run.ctx.mpcResult few
      simpa [initStep, isStep] using moves admissible
    | some step =>
      obtain ⟨random, admissible, inits⟩ :=
        StepBody.exists_initStep kenv.toEnv step.body run.ctx.mpcResult few
      have none := moves admissible
      rw [initStep, isStep] at none
      rw [Option.map_eq_none_iff.mp none] at inits
      cases inits
  | sending i parcels =>
    exfalso
    have nothing := main (by simp [isPc])
    cases parcels with
    | nil => simp [mainMPCProcess, isPc] at nothing
    | cons parcel rest =>
      -- a message to itself goes to the channel of the step, any other one leaves at once
      by_cases own : run.Own parcel
      · have legible := content.legible parcel (by simp [ContextRun.posted, isPc, Pc.pending])
          (by simp [own.2])
        obtain ⟨kind, isKind, -⟩ := legible.kind
        obtain ⟨step, isStep⟩ : ∃ step, run.ctx.mpcSteps[parcel.msg.stepID]? = some step := by
          refine found ?_
          have inside := (List.getElem?_eq_some_iff.mp isKind).1
          rwa [← kinds, List.length_map, List.length_map] at inside
        have room := orderly.room sound still isStep (.own isPc own)
        simp [mainMPCProcess, isPc, p2pMessage, own.1, own.2, getMessage, legible.context,
          MpcContext.onStep, isStep, Step.sendMessage, room] at nothing
      · have away : ¬(parcel.receiver = run.srv.self ∧ parcel.msgCode = .mpcMessage) := own
        simp [mainMPCProcess, isPc, p2pMessage, away] at nothing
  | waiting i =>
    right
    have nothing := main (by simp [isPc])
    rw [isPc] at placed
    obtain ⟨step, isStep⟩ := found placed
    refine ⟨i, step, rfl, isStep, ?_⟩
    by_contra told
    -- a result on the channel would end the wait
    obtain ⟨result, finish, isFinish⟩ := List.exists_cons_of_ne_nil told
    simp [mainMPCProcess, isPc, waitFinish, isStep, punctualChoice, isFinish] at nothing
  | stopping i result =>
    exfalso
    have nothing := main (by simp [isPc])
    rw [isPc] at placed
    obtain ⟨step, isStep⟩ := found placed
    have room := orderly.room sound still isStep (.stop isPc)
    simp [mainMPCProcess, isPc, stopLoop, MpcContext.onStep, isStep, Step.sendMessage, room]
      at nothing
  | finishStep i =>
    exfalso
    rw [isPc] at placed
    obtain ⟨step, isStep⟩ := found placed
    obtain ⟨orders, iterates⟩ := exists_iterates step.body
    have nothing := still.main sound ⟨.ok 0, [], []⟩ orders
      (by simpa [Permits, isPc, isStep, punctualChoice] using iterates)
    simp only [mainMPCProcess, isPc, finishStep, isStep] at nothing
    split at nothing <;> cases nothing
  | failing error peerIDs => exact absurd (by rw [isPc]; trivial) sound
  | quit result =>
    exfalso
    have nothing := main (by simp [isPc])
    cases quits : run.ctx.bQuit <;>
      simp [mainMPCProcess, isPc, orderly.unlocked, quits] at nothing
  | quitting result sends =>
    exfalso
    have nothing := main (by simp [isPc])
    rw [isPc] at placed
    by_cases isEnd : sends = 2 * run.ctx.mpcSteps.length
    · simp [mainMPCProcess, isPc, isEnd] at nothing
    · obtain ⟨step, isStep⟩ : ∃ step, run.ctx.mpcSteps[sends / 2]? = some step := by
        refine found ?_
        simp only [Pc.Placed] at placed
        omega
      by_cases even : sends % 2 = 0
      · have room := orderly.room sound still isStep
          (.quit (by rw [isPc, Nat.mul_div_cancel' (Nat.dvd_of_mod_eq_zero even)]))
        simp [mainMPCProcess, isPc, isEnd, MpcContext.quitSend, MpcContext.onStep, isStep, even,
          Step.sendMessage, room] at nothing
      · have room : step.finish.length < 3 := by
          by_contra full
          have isOdd : run.pc = .quitting result (2 * (sends / 2) + 1) := by
            rw [isPc]
            congr 1
            omega
          exact unwedged ⟨sends / 2, step, isStep, .inr ⟨.quit isOdd, not_lt.mp full⟩⟩
        simp [mainMPCProcess, isPc, isEnd, MpcContext.quitSend, MpcContext.onStep, isStep, even,
          Step.sendFinish, room] at nothing
  | returned result =>
    left
    rw [isPc] at sound
    rw [not_not.mp sound]
  | panicked => exact absurd (by rw [isPc]; trivial) sound

end ContextRun
end SchnorrMpc
