import SchnorrMpc.Mpc.Mail
import SchnorrMpc.Mpc.Transitions
import SchnorrMpc.Properties.Counting

/-!
# What a context knows behind a step

The main process passes the wait for a step when the counter of the step is
down, or when the time is over. In the first case the messages that have been
counted are there, each from another peer.
-/
namespace SchnorrMpc

open Lib

variable {step' step : Step} {srv : MpcDistributor} {ctx : MpcContext} {κ : Type} {accepted : Bool}
  {ptStep ptStep' : MpcPointStep} {body body' : StepBody} {env : Env} {store : BaseMpcResult}
  {heard : NodeID → MpcMessage → Prop} {W : Int} {i contextID : Nat} {msgs : List StepMessage}
  {P : Parcel → Prop} {out : List OutMessage} {parcel : Parcel}

/-! ### Passing a wait -/

/-- The wait for step `k` is still to come. -/
def Pc.Before (k : Nat) : Pc → Prop
  | .initMessageLoop _ => True
  | .initStep i | .sending i _ | .waiting i => i ≤ k
  | .stopping i _ | .finishStep i => i < k
  | .failing _ _ | .quit _ | .quitting _ _ | .returned _ | .panicked => False

/-- The wait for step `k` has returned without an error. -/
def Pc.Passed (k : Nat) : Pc → Prop
  | .initStep i | .sending i _ | .waiting i => k < i
  | .stopping i result => k < i ∨ k = i ∧ result = none
  | .finishStep i => k ≤ i
  | .initMessageLoop _ | .failing _ _ | .quit _ | .quitting _ _ | .returned _ | .panicked => False

namespace ContextRun

/-- No time-out is taken for a success while the step still waits for somebody. -/
def Punctual (k : Nat) (run : ContextRun) : Action → Prop
  | .mainMPCProcess choice => run.pc = .waiting k → choice.timeOut = true →
      ∀ step, run.ctx.mpcSteps[k]? = some step → step.waitAll = false → step.waiting ≤ 0
  | _ => True

instance (k : Nat) (run : ContextRun) (action : Action) : Decidable (run.Punctual k action) :=
  match action with
  | .mainMPCProcess choice =>
    match found : run.ctx.mpcSteps[k]? with
    | some step => decidable_of_iff
        (run.pc = .waiting k → choice.timeOut = true → step.waitAll = false → step.waiting ≤ 0)
        (by simp [Punctual, found])
    | none => isTrue (by simp [Punctual, found])
  | .messageLoop _ | .getMessage _ _ | .quitMpcContext _ | .quitterSend => isTrue trivial

/-- Whoever has come past the wait for step `k` has found its counter down. -/
structure Gate (k : Nat) (run : ContextRun) : Prop where
  addressed : run.Addressed
  told : run.pc.Before k → ∀ step, run.ctx.mpcSteps[k]? = some step → none ∈ step.finish →
    step.waiting ≤ 0
  passed : (run.pc.Passed k ∨
      ∃ parcel ∈ run.sent, parcel.msgCode = .mpcMessage ∧ k < parcel.msg.stepID) →
    ∀ step, run.ctx.mpcSteps[k]? = some step → step.waiting ≤ 0

variable {kenv : KeyEnv} {cfg : Config} {run next : ContextRun} {k : Nat} {action : Action}

section

variable (does : Does kenv cfg run action next)

include does

theorem Does.stays_down (down : ∀ step, run.ctx.mpcSteps[k]? = some step → step.waiting ≤ 0) :
    ∀ step, next.ctx.mpcSteps[k]? = some step → step.waiting ≤ 0 := by
  intro step' here
  obtain ⟨step, found, becomes⟩ := does.becomes here
  exact becomes.waiting_le.trans (down step found)

/-- The main process comes past a wait when it takes a nil, or when the time is over. -/
theorem Does.passed_cases (passed : next.pc.Passed k) :
    run.pc.Passed k ∨ run.pc = .waiting k ∧
      ((∃ step finish, run.ctx.mpcSteps[k]? = some step ∧ step.finish = none :: finish) ∨
        ∃ choice step, action = .mainMPCProcess choice ∧ run.ctx.mpcSteps[k]? = some step ∧
          choice.timeOut = true ∧ step.waitAll = false) := by
  cases does with
  | turns turn =>
    cases turn with
    | loopsStarted => exact absurd passed (Nat.not_lt_zero k)
    | parcelsSent isPc => exact .inl (by rw [isPc]; exact passed)
    | @timesOut i step isPc found late =>
      rcases passed with later | ⟨rfl, isNone⟩
      · exact .inl (by rw [isPc]; exact later)
      · refine .inr ⟨isPc, .inr ⟨_, step, rfl, found, late, ?_⟩⟩
        simpa using isNone
    | stepsDone | initFails | finishFails | errorSent | hasQuit | quitEnds | panics =>
      exact passed.elim
  | startsLoop | skipsLoop | fails | quits | quitPuts | loopPanics => exact passed.elim
  | inits isPc | sends isPc | sendsOwn isPc => exact .inl (by rw [isPc]; exact passed)
  | @waits choice i step result finish isPc found inTime head =>
    rcases passed with later | ⟨rfl, isNone⟩
    · exact .inl (by rw [isPc]; exact later)
    · exact .inr ⟨isPc, .inl ⟨step, finish, found, isNone ▸ head⟩⟩
  | @stops choice i result step isPc found room =>
    left
    rw [isPc]
    cases result with
    | none => exact (Nat.lt_or_eq_of_le passed).imp id (fun same => ⟨same, rfl⟩)
    | some => exact passed.elim
  | finishes isPc => exact .inl (by rw [isPc]; exact Nat.le_of_lt_succ passed)
  | loopStops | loopRounds | arrives | quitter | quitterEnds | quitterPuts => exact .inl passed

theorem Does.before (before : next.pc.Before k) : run.pc.Before k := by
  cases does with
  | turns turn =>
    cases turn with
    | loopsStarted isPc => rw [isPc]; trivial
    | parcelsSent isPc => rw [isPc]; exact before
    | timesOut isPc => rw [isPc]; exact Nat.le_of_lt before
    | stepsDone | initFails | finishFails | errorSent | hasQuit | quitEnds | panics =>
      exact before.elim
  | startsLoop isPc | skipsLoop isPc => rw [isPc]; trivial
  | inits isPc | sends isPc | sendsOwn isPc => rw [isPc]; exact before
  | waits isPc => rw [isPc]; exact Nat.le_of_lt before
  | @stops choice i result step isPc =>
    rw [isPc]
    cases result with
    | none => exact before
    | some => exact before.elim
  | finishes isPc => rw [isPc]; exact before
  | fails | quits | quitPuts | loopPanics => exact before.elim
  | loopStops | loopRounds | arrives | quitter | quitterEnds | quitterPuts => exact before

/-- A nil for the main process is an old one, or the counter is down; before the end, that is. -/
theorem Does.told (before : next.pc.Before k) (here : next.ctx.mpcSteps[k]? = some step')
    (isTold : none ∈ step'.finish) :
    step'.waiting ≤ 0 ∨ ∃ step, run.ctx.mpcSteps[k]? = some step ∧ none ∈ step.finish ∧
      step'.waiting ≤ step.waiting := by
  cases does with
  | turns | sends | fails | quits | loopPanics | quitter | quitterEnds =>
    exact .inr ⟨step', here, isTold, le_rfl⟩
  | startsLoop _ found | inits _ found | sendsOwn _ _ _ found | stops _ found | finishes _ found
  | loopStops found | arrives _ found =>
    rcases getElem?_set_cases here with ⟨rfl, rfl⟩ | old
    · exact .inr ⟨_, found, isTold, le_rfl⟩
    · exact .inr ⟨step', old, isTold, le_rfl⟩
  | skipsLoop _ found idle =>
    rcases getElem?_set_cases here with ⟨rfl, rfl⟩ | old
    · exact .inl idle
    · exact .inr ⟨step', old, isTold, le_rfl⟩
  | waits isPc found inTime head =>
    rcases getElem?_set_cases here with ⟨rfl, rfl⟩ | old
    · exact .inr ⟨_, found, head ▸ List.mem_cons_of_mem _ isTold, le_rfl⟩
    · exact .inr ⟨step', old, isTold, le_rfl⟩
  | loopRounds found loops head round =>
    rcases getElem?_set_cases here with ⟨rfl, rfl⟩ | old
    · cases round with
      | ignored | refused => exact .inr ⟨_, found, isTold, le_rfl⟩
      | accepted => exact .inr ⟨_, found, isTold, Int.sub_le_self _ (by omega)⟩
      | last => exact .inl le_rfl
    · exact .inr ⟨step', old, isTold, le_rfl⟩
  | quitPuts => exact before.elim
  | quitterPuts isQuitter found put =>
    rcases getElem?_set_cases here with ⟨rfl, rfl⟩ | old
    · cases put with
      | message => exact .inr ⟨_, found, isTold, le_rfl⟩
      | finish => exact .inr ⟨_, found, by simpa using isTold, le_rfl⟩
    · exact .inr ⟨step', old, isTold, le_rfl⟩

/-- Every move keeps the gate, as long as no wait that still lacks somebody ends with the time. -/
theorem Does.gate (punctual : run.Punctual k action) (gate : run.Gate k) : next.Gate k := by
  refine ⟨does.addressed gate.addressed, ?_, ?_⟩
  · intro before step' here isTold
    rcases does.told before here isTold with down | ⟨step, found, was, less⟩
    · exact down
    · exact less.trans (gate.told (does.before before) step found was)
  · intro comes
    apply does.stays_down
    rcases comes with passed | ⟨parcel, sent, isMessage, later⟩
    · rcases does.passed_cases passed with was | ⟨isPc, ⟨step, finish, found, head⟩ |
        ⟨choice, step, rfl, found, late, goesOn⟩⟩
      · exact gate.passed (.inl was)
      · intro step' found'
        cases found.symm.trans found'
        exact gate.told (by rw [isPc]; exact le_rfl) step found (by simp [head])
      · intro step' found'
        cases found.symm.trans found'
        exact punctual isPc late step found goesOn
    · rcases does.sent_cases sent with old | isError | ⟨i, rest, isPc, -⟩
      · exact gate.passed (.inr ⟨parcel, old, isMessage, later⟩)
      · cases isMessage.symm.trans isError
      · have isStep := gate.addressed _ _ isPc parcel (List.mem_cons_self ..)
        exact gate.passed (.inl (by rw [isPc]; exact isStep ▸ later))

end

theorem gate_start (k : Nat) (quiet : ∀ step ∈ ctx.mpcSteps, step.finish = []) :
    (start srv ctx).Gate k := by
  refine ⟨?_, ?_, ?_⟩
  · rintro i parcels ⟨⟩
  · intro _ step found isTold
    rw [quiet step (List.mem_of_getElem? found)] at isTold
    cases isTold
  · rintro (passed | ⟨parcel, sent, -⟩)
    · exact passed.elim
    · cases sent

theorem gate_of_within {Meets : ContextRun → Action → Prop} {arrives : NodeID → MpcMessage → Prop}
    (k : Nat) (reaches : Relation.ReflTransGen (Within Meets kenv cfg arrives) (start srv ctx) run)
    (punctual : ∀ run action, Meets run action → run.Punctual k action)
    (quiet : ∀ step ∈ ctx.mpcSteps, step.finish = []) : run.Gate k := by
  induction reaches with
  | refl => exact gate_start k quiet
  | tail _ last ih =>
    obtain ⟨action, -, meets, stepped⟩ := last
    exact (step_does stepped).gate (punctual _ _ meets) ih

end ContextRun

/-! ### What a step has counted -/

/-- Nobody has been counted twice. Steps that file under seeds go by the seed. -/
def StepKind.Apart (peers : List PeerInfo) (msgs : List StepMessage) : StepKind → Prop
  | request _ | ackGPK | ackRS => (msgs.map StepMessage.peerID).Nodup
  | skShare | rskShare | gpk .. | r .. | s .. =>
    (msgs.map fun msg => getPeerSeed peers msg.peerID).Nodup
  | ackMpc _ | ready | getReady => True

/-- The data of a step is that of these messages, each of another peer. -/
structure StepBody.Gathered (peers : List PeerInfo) (msgs : List StepMessage) (body : StepBody) :
    Prop where
  collected : body.Collected peers msgs
  apart : body.kind.Apart peers msgs

section

variable {peers : List PeerInfo} {msgs : List StepMessage} {msg : StepMessage}

theorem nodup_append_key {key : StepMessage → κ} (apart : (msgs.map key).Nodup)
    (absent : key msg ∉ msgs.map key) : ((msgs ++ [msg]).map key).Nodup := by
  rw [List.map_append]
  exact apart.append (List.nodup_singleton _) (by simpa using absent)

theorem absent_of_lookup {ν : Type} [DecidableEq κ] (key : StepMessage → κ)
    {value : StepMessage → ν}
    (missing : (msgs.map fun m => (key m, value m)).lookup (key msg) = none) :
    key msg ∉ msgs.map key := by
  intro member
  have found := (lookup_map_isSome msgs key value (key msg)).mpr member
  rw [missing] at found
  cases found

/-- A share is taken when nothing is filed under the seed of its sender. -/
private theorem share_gathered {poly poly' : RandomPolynomialValue}
    (isMessage : poly.message = msgs.map fun m => (getPeerSeed peers m.peerID, m.data.getD 0 0))
    (apart : (msgs.map fun m => getPeerSeed peers m.peerID).Nodup)
    (handled : poly.handleMessage peers msg = .ok (accepted, poly')) :
    poly'.message = (if accepted then msgs ++ [msg] else msgs).map
        (fun m => (getPeerSeed peers m.peerID, m.data.getD 0 0)) ∧
      ((if accepted then msgs ++ [msg] else msgs).map
        fun m => getPeerSeed peers m.peerID).Nodup := by
  rcases RandomPolynomialValue.handleMessage_cases handled with
    ⟨rfl, rfl, -⟩ | ⟨rfl, missing, value, isValue, rfl⟩
  · exact ⟨isMessage, apart⟩
  · rw [isMessage] at missing ⊢
    have absent := absent_of_lookup (fun m => getPeerSeed peers m.peerID) missing
    have first : msg.data.getD 0 0 = value := by
      rw [List.getD_eq_getElem?_getD, isValue, Option.getD_some]
    refine ⟨?_, nodup_append_key apart absent⟩
    simp only [if_true, ← assign_map (fun m : StepMessage => getPeerSeed peers m.peerID) absent,
      first]

/-- A public share is taken when it is a pair and nothing is filed under the seed of its sender. -/
theorem MpcPointStep.handleMessage_cases {filed : Assoc Nat (Int × Int)}
    (isFiled : ptStep.messages.map MpcPointGenerator.message = [filed])
    (handled : ptStep.handleMessage peers msg = .ok (accepted, ptStep')) :
    (accepted = false ∧ ptStep' = ptStep) ∨
      (accepted = true ∧ filed.lookup (getPeerSeed peers msg.peerID) = none ∧
        ∃ x y, msg.data = [x, y] ∧ ptStep'.messages.map MpcPointGenerator.message =
          [Assoc.assign filed (getPeerSeed peers msg.peerID) (x, y)]) := by
  obtain ⟨messages, resultKeys⟩ := ptStep
  obtain ⟨pointer, rfl, rfl⟩ := List.map_eq_singleton_iff.mp isFiled
  simp only [MpcPointStep.handleMessage, Outcome.bind_eq_ok_iff, Outcome.index_eq_ok_iff] at handled
  obtain ⟨x, isX, y, isY, offered⟩ := handled
  -- the sender has no seed, or the length is wrong
  split at offered
  · cases offered
    exact .inl ⟨rfl, rfl⟩
  · split at offered
    · cases offered
      exact .inl ⟨rfl, rfl⟩
    next two =>
      simp only [offer, Outcome.bind_eq_ok_iff] at offered
      obtain ⟨⟨_, messages⟩, taken, built⟩ := offered
      cases built
      split at taken
      -- something is filed under the seed
      · cases taken
        exact .inl ⟨rfl, rfl⟩
      next missing =>
        simp only [Outcome.bind_eq_ok_iff, Outcome.index_eq_ok_iff] at taken
        obtain ⟨_, ⟨x', isX', y', isY', filed⟩, _, nothing, listed⟩ := taken
        cases filed
        cases nothing
        cases listed
        have length : msg.data.length = 2 := by simpa [MpcPointStep.signNum] using two
        obtain ⟨a, b, data⟩ := List.length_eq_two.mp length
        rw [data] at isX' isY'
        cases isX'
        cases isY'
        exact .inr ⟨rfl, Option.not_isSome_iff_eq_none.mp missing, _, _, data, rfl⟩

/-- The same for a part of the signature, which is a single number. -/
theorem MpcSStep.handleMessage_cases {msStep msStep' : MpcSStep} {filed : Assoc Nat Int}
    (isFiled : msStep.messages.map MpcSGenerator.message = [filed])
    (handled : msStep.handleMessage peers msg = .ok (accepted, msStep')) :
    (accepted = false ∧ msStep' = msStep) ∨
      (accepted = true ∧ filed.lookup (getPeerSeed peers msg.peerID) = none ∧
        ∃ value, msg.data = [value] ∧ msStep'.messages.map MpcSGenerator.message =
          [Assoc.assign filed (getPeerSeed peers msg.peerID) value]) := by
  obtain ⟨messages, resultKeys⟩ := msStep
  obtain ⟨pointer, rfl, rfl⟩ := List.map_eq_singleton_iff.mp isFiled
  simp only [MpcSStep.handleMessage] at handled
  split at handled
  · cases handled
    exact .inl ⟨rfl, rfl⟩
  · split at handled
    · cases handled
      exact .inl ⟨rfl, rfl⟩
    next one =>
      simp only [offer, Outcome.bind_eq_ok_iff] at handled
      obtain ⟨⟨_, messages⟩, taken, built⟩ := handled
      cases built
      split at taken
      · cases taken
        exact .inl ⟨rfl, rfl⟩
      next missing =>
        simp only [Outcome.bind_eq_ok_iff, Outcome.index_eq_ok_iff] at taken
        obtain ⟨_, ⟨value, isValue, filed⟩, _, nothing, listed⟩ := taken
        cases filed
        cases nothing
        cases listed
        have length : msg.data.length = 1 := by simpa [MpcSStep.signNum] using one
        obtain ⟨a, data⟩ := List.length_eq_one_iff.mp length
        rw [data] at isValue
        cases isValue
        exact .inr ⟨rfl, Option.not_isSome_iff_eq_none.mp missing, _, data, rfl⟩

private theorem point_gathered
    (isMessage : ptStep.messages.map MpcPointGenerator.message =
      [msgs.map fun m => (getPeerSeed peers m.peerID, (m.data.getD 0 0, m.data.getD 1 0))])
    (apart : (msgs.map fun m => getPeerSeed peers m.peerID).Nodup)
    (handled : ptStep.handleMessage peers msg = .ok (accepted, ptStep')) :
    ptStep'.messages.map MpcPointGenerator.message = [(if accepted then msgs ++ [msg] else msgs).map
        (fun m => (getPeerSeed peers m.peerID, (m.data.getD 0 0, m.data.getD 1 0)))] ∧
      ((if accepted then msgs ++ [msg] else msgs).map
        fun m => getPeerSeed peers m.peerID).Nodup := by
  rcases MpcPointStep.handleMessage_cases isMessage handled with
    ⟨rfl, rfl⟩ | ⟨rfl, missing, x, y, data, filed⟩
  · exact ⟨isMessage, apart⟩
  · have absent := absent_of_lookup (fun m => getPeerSeed peers m.peerID) missing
    refine ⟨?_, nodup_append_key apart absent⟩
    rw [filed]
    simp only [if_true, data, List.getD_cons_zero, List.getD_cons_succ,
      ← assign_map (fun m : StepMessage => getPeerSeed peers m.peerID) absent]

private theorem gathered_of_handles (handles : Handles peers msgs body msg)
    (apart : (msgs.map StepMessage.peerID).Nodup)
    (handled : body.handleMessage peers msg = .ok (accepted, body')) :
    body'.Collected peers (if accepted then msgs ++ [msg] else msgs) ∧
      ((if accepted then msgs ++ [msg] else msgs).map StepMessage.peerID).Nodup := by
  obtain ⟨after, same, collected⟩ := handles
  cases same.symm.trans handled
  by_cases good : body.kind.Proper msg ∧ msg.peerID ∉ msgs.map StepMessage.peerID
  · rw [if_pos good] at collected
    rw [decide_eq_true good]
    exact ⟨collected, nodup_append_key apart good.2⟩
  · rw [if_neg good] at collected
    rw [decide_eq_false good]
    exact ⟨collected, apart⟩

section

variable (gathered : body.Gathered peers msgs)

include gathered

/-- Whatever a step is given, it has gathered the messages that it has accepted. -/
theorem StepBody.Gathered.handleMessage
    (handled : body.handleMessage peers msg = .ok (accepted, body')) :
    body'.Gathered peers (if accepted then msgs ++ [msg] else msgs) := by
  obtain ⟨collected, apart⟩ := gathered
  have sameKind := StepBody.handleMessage_kind handled
  cases body with
  | request req =>
    obtain ⟨collected', apart'⟩ := gathered_of_handles (handles_request collected) apart handled
    exact ⟨collected', sameKind ▸ apart'⟩
  | ackGPK ack =>
    obtain ⟨collected', apart'⟩ := gathered_of_handles (handles_ackGPK collected) apart handled
    exact ⟨collected', sameKind ▸ apart'⟩
  | ackRS mars =>
    obtain ⟨collected', apart'⟩ := gathered_of_handles (handles_ackRS collected) apart handled
    exact ⟨collected', sameKind ▸ apart'⟩
  | ackMpc | ready | getReady =>
    cases handled
    exact ⟨trivial, trivial⟩
  | skShare poly | rskShare poly =>
    simp only [StepBody.handleMessage, Outcome.bind_eq_ok_iff] at handled
    obtain ⟨_, taken, same⟩ := handled
    cases same
    exact ⟨(share_gathered collected apart taken).1, (share_gathered collected apart taken).2⟩
  | gpk ptStep | r ptStep =>
    simp only [StepBody.handleMessage, Outcome.bind_eq_ok_iff] at handled
    obtain ⟨⟨_, ptStep'⟩, taken, same⟩ := handled
    cases same
    obtain ⟨isMessage, apart'⟩ := point_gathered collected apart taken
    exact ⟨isMessage, apart'⟩
  | s msStep =>
    simp only [StepBody.handleMessage, Outcome.bind_eq_ok_iff] at handled
    obtain ⟨⟨_, msStep'⟩, taken, same⟩ := handled
    cases same
    rcases MpcSStep.handleMessage_cases collected taken with
      ⟨rfl, rfl⟩ | ⟨rfl, missing, value, data, filed⟩
    · exact ⟨collected, apart⟩
    · have absent := absent_of_lookup (fun m => getPeerSeed peers m.peerID) missing
      refine ⟨?_, nodup_append_key apart absent⟩
      simp only [StepBody.Collected, filed, if_true, data, List.getD_cons_zero,
        ← assign_map (fun m : StepMessage => getPeerSeed peers m.peerID) absent]

theorem StepBody.Gathered.initStep {peers' : List PeerInfo} {random : Randomness}
    (inits : body.initStep env peers store random = some (.ok (body', peers'))) :
    body'.Gathered peers msgs :=
  ⟨gathered.collected.initStep inits, StepBody.initStep_kind inits ▸ gathered.apart⟩

/-- The result of a step is beside what it has gathered. -/
theorem StepBody.Gathered.finishStep {cfg : Config} {list : List PeerInfo} {store' : BaseMpcResult}
    {orders : Orders} (finishes : body.finishStep env cfg list store orders = .ok (body', store')) :
    body'.Gathered peers msgs := by
  refine ⟨?_, StepBody.finishStep_kind finishes ▸ gathered.apart⟩
  have collected := gathered.collected
  cases body with
  | request | ackMpc | ready | getReady =>
    cases finishes
    exact collected
  | skShare poly | rskShare poly =>
    simp only [StepBody.finishStep, Outcome.bind_eq_ok_iff] at finishes
    obtain ⟨_, finished, same⟩ := finishes
    cases same
    obtain ⟨order, _, _, _, -, isSum, -⟩ := RandomPolynomialValue.finish_eq_ok finished
    rw [isSum]
    exact collected
  | gpk ptStep | r ptStep =>
    simp only [StepBody.finishStep, MpcPointStep.finish, Outcome.bind_eq_ok_iff] at finishes
    obtain ⟨_, ⟨messages, calculated, _, -, built⟩, same⟩ := finishes
    cases built
    cases same
    -- the results are beside the points
    have kept :=
      map_of_calculateEach MpcPointGenerator.message (fun point order result returned => by
      rw [(MpcPointGenerator.calculateResult_eq_ok returned).2.2]) calculated
    simp only [StepBody.Collected, kept]
    exact collected
  | s msStep =>
    simp only [StepBody.finishStep, MpcSStep.finish, Outcome.bind_eq_ok_iff] at finishes
    obtain ⟨_, ⟨messages, calculated, _, -, built⟩, same⟩ := finishes
    cases built
    cases same
    have kept := map_of_calculateEach MpcSGenerator.message (fun msg order result returned => by
      simp only [MpcSGenerator.calculateResult] at returned
      split at returned
      · cases returned
      · simp only [Outcome.bind_eq_ok_iff] at returned
        obtain ⟨_, -, built⟩ := returned
        cases built
        rfl) calculated
    simp only [StepBody.Collected, kept]
    exact collected
  | ackGPK | ackRS =>
    simp only [StepBody.finishStep, Outcome.bind_eq_ok_iff] at finishes
    obtain ⟨_, -, same⟩ := finishes
    cases same
    exact collected

end

end

/-! ### Counting in a run -/

/-- The messages that step `i` has counted, all of which have been heard. -/
structure Step.Tally (heard : NodeID → MpcMessage → Prop) (peers : List PeerInfo) (W : Int)
    (i : Nat) (msgs : List StepMessage) (step : Step) : Prop where
  waiting : step.waiting = W - msgs.length
  gathered : step.body.Gathered peers msgs
  heard : ∀ m ∈ msgs, ∃ msg, heard m.peerID msg ∧ msg.stepID = i ∧
    m = ContextRun.stepMessage m.peerID msg

theorem Step.Tally.mono {heard' : NodeID → MpcMessage → Prop} {peers : List PeerInfo}
    (tally : step.Tally heard peers W i msgs)
    (more : ∀ sender msg, heard sender msg → heard' sender msg) :
    step.Tally heard' peers W i msgs := by
  refine ⟨tally.waiting, tally.gathered, fun m member => ?_⟩
  obtain ⟨msg, was, isStep, same⟩ := tally.heard m member
  exact ⟨msg, more _ _ was, isStep, same⟩

namespace ContextRun

variable {kenv : KeyEnv} {cfg : Config} {run next : ContextRun} {action : Action}

/-- What one move makes of a tally: nothing, or one message more. -/
theorem Becomes.tally (becomes : run.Becomes kenv cfg i step step')
    (found : run.ctx.mpcSteps[i]? = some step) (inbox : Inbox heard run.ctx.mpcSteps)
    (tally : step.Tally heard run.ctx.peers W i msgs) :
    ∃ msgs', step'.Tally heard run.ctx.peers W i msgs' := by
  cases becomes with
  | quiet => exact ⟨msgs, tally.waiting, tally.gathered, tally.heard⟩
  | inits isPc inits => exact ⟨msgs, tally.waiting, tally.gathered.initStep inits, tally.heard⟩
  | finishes isPc finishes =>
    obtain ⟨_, finished, -⟩ := StepBody.finish_cases finishes
    exact ⟨msgs, tally.waiting, tally.gathered.finishStep finished, tally.heard⟩
  | @rounds msg rest step' loops head round =>
    have known : ∃ sent, heard msg.peerID sent ∧ sent.stepID = i ∧
        msg = stepMessage msg.peerID sent := inbox i step found msg (by simp [head])
    have longer : ∀ m ∈ msgs ++ [msg], ∃ sent, heard m.peerID sent ∧ sent.stepID = i ∧
        m = stepMessage m.peerID sent := by
      intro m member
      rcases List.mem_append.mp member with old | new
      · exact tally.heard m old
      · rw [List.mem_singleton.mp new]
        exact known
    have waiting := tally.waiting
    cases round with
    | ignored => exact ⟨msgs, tally.waiting, tally.gathered, tally.heard⟩
    | refused same waits handled =>
      exact ⟨msgs, tally.waiting, tally.gathered.handleMessage handled, tally.heard⟩
    | accepted same waits handled =>
      refine ⟨msgs ++ [msg], ?_, tally.gathered.handleMessage handled, longer⟩
      simp only [List.length_append, List.length_singleton]
      push_cast
      omega
    | last same waits room handled =>
      refine ⟨msgs ++ [msg], ?_, tally.gathered.handleMessage handled, longer⟩
      simp only [List.length_append, List.length_singleton]
      push_cast
      omega

theorem Becomes.kind (becomes : run.Becomes kenv cfg i step step') :
    step'.body.kind = step.body.kind := by
  cases becomes with
  | quiet => rfl
  | inits isPc inits => exact StepBody.initStep_kind inits
  | finishes isPc finishes => exact StepBody.finish_kind finishes
  | rounds loops head round => exact round.kind_stepId.1

/-- Step `i` is of this kind and has counted these messages. -/
structure Counted (heard : NodeID → MpcMessage → Prop) (kind : StepKind) (W : Int) (i : Nat)
    (step : Step) (msgs : List StepMessage) (run : ContextRun) : Prop where
  found : run.ctx.mpcSteps[i]? = some step
  kind : step.body.kind = kind
  tally : step.Tally heard run.ctx.peers W i msgs

theorem counted_of_fresh (found : run.ctx.mpcSteps[i]? = some step)
    (fresh : step.body.Gathered run.ctx.peers []) :
    run.Counted heard step.body.kind step.waiting i step [] :=
  ⟨found, rfl, by simp, fresh, by simp⟩

theorem Does.counted {kind : StepKind} (does : Does kenv cfg run action next)
    (inbox : Inbox heard run.ctx.mpcSteps) (peers : next.ctx.peers = run.ctx.peers)
    (counted : run.Counted heard kind W i step msgs) :
    ∃ step' msgs', next.Counted heard kind W i step' msgs' := by
  obtain ⟨found, isKind, tally⟩ := counted
  have inside := (List.getElem?_eq_some_iff.mp found).1
  rw [← does.length] at inside
  have here := List.getElem?_eq_getElem inside
  obtain ⟨before, found', becomes⟩ := does.becomes here
  cases found.symm.trans found'
  obtain ⟨msgs', tally'⟩ := becomes.tally found inbox tally
  exact ⟨_, msgs', here, becomes.kind.trans isKind, peers ▸ tally'⟩

/-! ### Peers that stay -/

end ContextRun

/-- Step `j` has been initialized, if the run goes on. -/
def Pc.Inited (j : Nat) : Pc → Prop
  | .initMessageLoop _ => False
  | .initStep i => j < i
  | .sending i _ | .waiting i | .stopping i _ | .finishStep i => j ≤ i
  | .failing _ _ | .quit _ | .quitting _ _ | .returned _ | .panicked => True

namespace ContextRun

variable {kenv : KeyEnv} {cfg : Config} {run next : ContextRun} {action : Action}

/-- If the context draws seeds, it has drawn them. -/
def Drawn (run : ContextRun) : Prop :=
  ∀ j step, run.ctx.mpcSteps[j]? = some step → step.body.kind = .request .mpcGPKLeader →
    run.pc.Inited j

theorem drawn_of_kinds
    (kinds : ∀ step ∈ run.ctx.mpcSteps, step.body.kind ≠ .request .mpcGPKLeader) : run.Drawn :=
  fun _ step found isKind => absurd isKind (kinds step (List.mem_of_getElem? found))

section

variable (does : Does kenv cfg run action next)

include does

theorem Does.inited {j : Nat} (inited : run.pc.Inited j) : next.pc.Inited j := by
  cases does with
  | turns turn =>
    cases turn with
    | loopsStarted isPc =>
      rw [isPc] at inited
      exact inited.elim
    | parcelsSent isPc | timesOut isPc =>
      rw [isPc] at inited
      exact inited
    | stepsDone | initFails | finishFails | errorSent | hasQuit | quitEnds | panics => trivial
  | startsLoop isPc | skipsLoop isPc =>
    rw [isPc] at inited
    exact inited.elim
  | inits isPc =>
    rw [isPc] at inited
    exact Nat.le_of_lt inited
  | sends isPc | sendsOwn isPc | waits isPc =>
    rw [isPc] at inited
    exact inited
  | @stops _ _ result _ isPc =>
    rw [isPc] at inited
    cases result with
    | none => exact inited
    | some => trivial
  | finishes isPc =>
    rw [isPc] at inited
    exact Nat.lt_succ_of_le inited
  | fails | quits | quitPuts | loopPanics => trivial
  | loopStops | loopRounds | arrives | quitter | quitterEnds | quitterPuts => exact inited

theorem Does.drawn (drawn : run.Drawn) : next.Drawn := by
  intro j step' found isKind
  obtain ⟨step, before, becomes⟩ := does.becomes found
  exact does.inited (drawn j step before (becomes.kind.symm.trans isKind))

theorem Does.peers (drawn : run.Drawn) : next.ctx.peers = run.ctx.peers := by
  cases does with
  | @inits _ i _ _ _ _ isPc found inits =>
    have same := StepBody.initStep_peers inits
    split at same
    next isKind =>
      have inited := drawn i _ found isKind
      rw [isPc] at inited
      exact absurd inited (Nat.lt_irrefl i)
    next => exact same
  | _ => rfl

end

section

variable {Meets : ContextRun → Action → Prop} {arrives : NodeID → MpcMessage → Prop}
  {base : ContextRun}
  (reaches : Relation.ReflTransGen (Within Meets kenv cfg arrives) base run)

include reaches

theorem peers_of_within (drawn : base.Drawn) :
    run.ctx.peers = base.ctx.peers ∧ run.Drawn := by
  induction reaches with
  | refl => exact ⟨rfl, drawn⟩
  | tail _ last ih =>
    obtain ⟨action, -, -, stepped⟩ := last
    have does := step_does stepped
    exact ⟨(does.peers ih.2).trans ih.1, does.drawn ih.2⟩

theorem views_of_within (inbox : Inbox (base.view.Heard arrives) base.ctx.mpcSteps) :
    Inbox (run.view.Heard arrives) run.ctx.mpcSteps ∧
      View.Reaches kenv cfg arrives base.view run.view := by
  have free : Reaches kenv cfg arrives base run :=
    Relation.ReflTransGen.mono (fun _ _ => Within.moves) _ _ reaches
  exact free.refines inbox

theorem counted_of_within {kind : StepKind} (drawn : base.Drawn)
    (inbox : Inbox (base.view.Heard arrives) base.ctx.mpcSteps)
    (counted : base.Counted (base.view.Heard arrives) kind W i step msgs) :
    ∃ step' msgs', run.Counted (run.view.Heard arrives) kind W i step' msgs' := by
  induction reaches with
  | refl => exact ⟨step, msgs, counted⟩
  | @tail run next path last ih =>
    obtain ⟨step, msgs, counted⟩ := ih
    have inboxHere := (views_of_within path inbox).1
    have heard : ∀ sender msg, run.view.Heard arrives sender msg →
        next.view.Heard arrives sender msg := by
      intro sender msg was
      rcases (last.moves.refines inboxHere).moves with same | move
      · rw [same]
        exact was
      · exact move.heard was
    obtain ⟨action, -, -, stepped⟩ := last
    have does := step_does stepped
    obtain ⟨step', msgs', found', isKind, tally⟩ :=
      does.counted inboxHere (does.peers (peers_of_within path drawn).2) counted
    exact ⟨step', msgs', found', isKind, tally.mono heard⟩

end

/-! ### What a node sends -/

/-- Everything that has been sent or is about to be. -/
structure Posted (P : Parcel → Prop) (run : ContextRun) : Prop where
  sent : ∀ parcel ∈ run.sent, P parcel
  pending : ∀ i parcels, run.pc = .sending i parcels → ∀ parcel ∈ parcels, P parcel

theorem Does.posted (does : Does kenv cfg run action next)
    (errors : ∀ parcel, parcel.msgCode = .mpcError → P parcel)
    (makes : ∀ choice i step body peers out, action = .mainMPCProcess choice →
      run.pc = .initStep i → run.ctx.mpcSteps[i]? = some step →
        step.body.initStep kenv.toEnv run.ctx.peers run.ctx.mpcResult choice.random =
          some (.ok (body, peers)) → body.createMessage peers = .ok out →
            ∀ parcel ∈ out.flatMap (parcels run.srv run.ctx.contextID i peers), P parcel)
    (posted : run.Posted P) : next.Posted P := by
  constructor
  · intro parcel sent
    rcases does.sent_cases sent with old | isError | ⟨i, rest, isPc, -⟩
    · exact posted.sent parcel old
    · exact errors parcel isError
    · exact posted.pending i _ isPc parcel (List.mem_cons_self ..)
  · intro i parcels isPc parcel member
    cases does with
    | turns turn => cases turn <;> cases isPc
    | startsLoop | skipsLoop | waits | finishes | fails | quits | quitPuts | loopPanics =>
      cases isPc
    | @stops _ _ result => cases result <;> cases isPc
    | inits wasPc found inits creates =>
      cases isPc
      exact makes _ _ _ _ _ _ rfl wasPc found inits creates parcel member
    | sends wasPc | sendsOwn wasPc =>
      cases isPc
      exact posted.pending _ _ wasPc parcel (List.mem_cons_of_mem _ member)
    | loopStops | loopRounds | arrives | quitter | quitterEnds | quitterPuts =>
      exact posted.pending i parcels isPc parcel member

theorem posted_start : (start srv ctx).Posted P := by
  constructor
  · intro parcel sent
    cases sent
  · rintro i parcels ⟨⟩

end ContextRun

/-- The request goes another way, and who waits for the leader sends nothing. -/
def StepKind.Silent : StepKind → Prop
  | request _ | getReady => True
  | _ => False

theorem StepBody.createMessage_silent {peers : List PeerInfo} (silent : body.kind.Silent)
    (created : body.createMessage peers = .ok out) : ∀ item ∈ out, item.msgCode ≠ .mpcMessage := by
  cases body with
  | request req =>
    obtain ⟨item, rfl, isCode, -⟩ := RequestMpcStep.createMessage_eq_ok created
    simp [isCode]
  | getReady =>
    cases created
    simp
  | _ => exact silent.elim

theorem msgCode_of_parcels {peers : List PeerInfo} {item : OutMessage}
    (member : parcel ∈ ContextRun.parcels srv contextID i peers item) :
    parcel.msgCode = item.msgCode := by
  unfold ContextRun.parcels at member
  split at member
  · obtain rfl := List.mem_singleton.mp member
    rfl
  · obtain ⟨_, -, rfl⟩ := List.mem_map.mp member
    rfl

theorem stepID_of_flatMap {peers : List PeerInfo}
    (member : parcel ∈ out.flatMap (ContextRun.parcels srv contextID i peers)) :
    parcel.msg.stepID = i := by
  obtain ⟨item, -, isParcel⟩ := List.mem_flatMap.mp member
  exact ContextRun.stepID_of_parcels isParcel

namespace ContextRun

variable {kenv : KeyEnv} {cfg : Config} {run : ContextRun} {Meets : ContextRun → Action → Prop}
  {arrives : NodeID → MpcMessage → Prop} {srv : MpcDistributor} {ctx : MpcContext} {k : Nat}

section

variable (reaches : Relation.ReflTransGen (Within Meets kenv cfg arrives) (start srv ctx) run)
  (silent : ∀ step, ctx.mpcSteps[k]? = some step → step.body.kind.Silent)

include reaches silent

/-- A silent step has sent no message. -/
theorem mute_of_within :
    (∀ step, run.ctx.mpcSteps[k]? = some step → step.body.kind.Silent) ∧
      run.Posted fun parcel => parcel.msgCode = .mpcMessage → parcel.msg.stepID ≠ k := by
  induction reaches with
  | refl => exact ⟨silent, posted_start⟩
  | tail _ last ih =>
    obtain ⟨action, -, -, stepped⟩ := last
    have does := step_does stepped
    constructor
    · intro step' here
      obtain ⟨step, found, becomes⟩ := does.becomes here
      rw [becomes.kind]
      exact ih.1 step found
    · refine does.posted ?_ ?_ ih.2
      · intro parcel isError isMessage
        cases isMessage.symm.trans isError
      · rintro choice i step body peers out - isPc found inits creates parcel member isMessage
          isStep
        have here : i = k := (stepID_of_flatMap member).symm.trans isStep
        obtain ⟨item, isItem, isParcel⟩ := List.mem_flatMap.mp member
        rw [msgCode_of_parcels isParcel] at isMessage
        refine StepBody.createMessage_silent ?_ creates item isItem isMessage
        rw [StepBody.initStep_kind inits]
        exact ih.1 step (here ▸ found)

theorem arrived_of_within {sender : NodeID} {msg : MpcMessage}
    (heard : run.view.Heard arrives sender msg) (isStep : msg.stepID = k) : arrives sender msg := by
  rcases heard with came | ⟨-, own⟩
  · exact came
  · obtain ⟨parcel, sent, isMessage, isMail⟩ := mem_mails_iff.mp own
    have isMsg : _ = parcel.msg := (Prod.mk.inj isMail).2
    exact absurd (isMsg ▸ isStep) ((mute_of_within reaches silent).2.sent parcel sent isMessage)

end

end ContextRun
end SchnorrMpc
