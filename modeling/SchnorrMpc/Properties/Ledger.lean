import SchnorrMpc.Mpc.KeyMessages
import SchnorrMpc.Properties.ChannelRoom
import SchnorrMpc.Properties.Gates

/-!
# The messages of a key generation, one by one

What has been put on the channel of a step is on it still, or has been counted,
or has been refused. A step refuses nothing as long as every peer sends it one
message that it can read, so it counts all of them, and its channels have room.
-/
namespace SchnorrMpc

open Lib

namespace ContextRun

/-- In time, and a message comes in only after the seeds have been drawn. -/
def Prompt (run : ContextRun) : Action → Prop
  | .mainMPCProcess choice => choice.timeOut = false
  | .getMessage _ _ => run.Drawn
  | .messageLoop _ | .quitMpcContext _ | .quitterSend => True

theorem Prompt.punctual {run : ContextRun} {action : Action} (prompt : run.Prompt action)
    (k : Nat) : run.Punctual k action := by
  cases action with
  | mainMPCProcess choice =>
    intro _ late
    cases late.symm.trans prompt
  | messageLoop | getMessage | quitMpcContext | quitterSend => trivial

/-- The messages of step `k` that a node has heard, then those that it has sent itself. -/
def messagesOf (heard : List (NodeID × MpcMessage)) (self : NodeID) (sent : List Parcel) (k : Nat) :
    List StepMessage :=
  (heard.filter fun entry => entry.2.stepID = k).map (fun entry => stepMessage entry.1 entry.2) ++
    ((mails sent).filter fun mail => mail.1 = self ∧ mail.2.stepID = k).map
      (fun mail => stepMessage self mail.2)

/-- The messages that have been put on the channel of step `k`. -/
def entered (heard : List (NodeID × MpcMessage)) (run : ContextRun) (k : Nat) :
    List StepMessage :=
  messagesOf heard run.srv.self run.sent k

/-! ### One move and one step -/

/-- What a move makes of a step and of the messages that have been put on its channel. -/
inductive Affects (kenv : KeyEnv) (cfg : Config) (run : ContextRun) (k : Nat) (step : Step)
    (entered : List StepMessage) : Step → List StepMessage → Prop where
  | leaves {msgChan : List (Option StepMessage)} {finish : List (Option Err)} {looping : Bool}
      (same : msgChan.reduceOption = step.msgChan.reduceOption) :
      Affects kenv cfg run k step entered { step with msgChan, finish, looping } entered
  | enters {msg : StepMessage} {entered' : List StepMessage}
      (drawn : run.Drawn ∨ ∃ i parcels, run.pc = .sending i parcels) (isStep : msg.stepId = k)
      (perm : entered'.Perm (msg :: entered)) :
      Affects kenv cfg run k step entered
        { step with msgChan := step.msgChan ++ [some msg] } entered'
  | rounds {msg : StepMessage} {rest : List (Option StepMessage)} {step' : Step}
      (loops : step.looping = true) (head : step.msgChan = some msg :: rest)
      (round : Step.Round run.ctx.peers step msg rest step') :
      Affects kenv cfg run k step entered step' entered
  | inits {random : Randomness} {body : StepBody} {peers : List PeerInfo}
      (inits : step.body.initStep kenv.toEnv run.ctx.peers run.ctx.mpcResult random =
        some (.ok (body, peers))) :
      Affects kenv cfg run k step entered { step with body } entered
  | finishes {choice : Choice} {body : StepBody} {mpcResult : BaseMpcResult} {srv : MpcDistributor}
      (finishes : step.body.finish kenv cfg run.srv run.ctx.peers run.ctx.mpcResult choice =
        .ok (body, mpcResult, srv)) :
      Affects kenv cfg run k step entered { step with body } entered

section

variable {kenv : KeyEnv} {cfg : Config} {run next : ContextRun} {action : Action} {k : Nat}
  {step : Step} {heard : List (NodeID × MpcMessage)}

theorem Affects.unchanged {entered : List StepMessage} :
    Affects kenv cfg run k step entered step entered := .leaves rfl

/-- One step is set, and what has been put on the channels stays. -/
theorem affects_of_set {steps : List Step} {j : Nat} {stepJ stepJ' : Step}
    {before : List StepMessage} (found : steps[k]? = some step)
    (there : steps[j]? = some stepJ)
    (affects : j = k → Affects kenv cfg run k stepJ before stepJ' before) :
    ∃ step', (steps.set j stepJ')[k]? = some step' ∧
      Affects kenv cfg run k step before step' before := by
  by_cases same : j = k
  · subst same
    cases found.symm.trans there
    refine ⟨stepJ', ?_, affects rfl⟩
    rw [List.getElem?_set_self (List.getElem?_eq_some_iff.mp found).1]
  · exact ⟨step, by rw [List.getElem?_set_ne same, found], .unchanged⟩

/-- A message is put on the channel of one step. -/
theorem affects_of_put {steps : List Step} {j : Nat} {stepJ : Step} {msg : StepMessage}
    {before after : List StepMessage} (found : steps[k]? = some step)
    (there : steps[j]? = some stepJ)
    (drawn : run.Drawn ∨ ∃ i parcels, run.pc = .sending i parcels) (isStep : msg.stepId = j)
    (here : j = k → after.Perm (msg :: before)) (elsewhere : j ≠ k → after = before) :
    ∃ step', (steps.set j { stepJ with msgChan := stepJ.msgChan ++ [some msg] })[k]? = some step' ∧
      Affects kenv cfg run k step before step' after := by
  by_cases same : j = k
  · subst same
    cases found.symm.trans there
    refine ⟨_, ?_, .enters drawn isStep (here rfl)⟩
    rw [List.getElem?_set_self (List.getElem?_eq_some_iff.mp found).1]
  · rw [elsewhere same]
    exact ⟨step, by rw [List.getElem?_set_ne same, found], .unchanged⟩

theorem messagesOf_away {parcel : Parcel} {sent : List Parcel} (away : ¬run.Own parcel) :
    messagesOf heard run.srv.self (sent ++ [parcel]) k = messagesOf heard run.srv.self sent k := by
  have none : (mails [parcel]).filter
      (fun mail => mail.1 = run.srv.self ∧ mail.2.stepID = k) = [] := by
    by_cases isMessage : parcel.msgCode = .mpcMessage
    · have other : parcel.receiver ≠ run.srv.self := fun same => away ⟨same, isMessage⟩
      simp [mails, isMessage, other]
    · simp [mails, isMessage]
  simp only [messagesOf, mails_append, List.filter_append, none, List.append_nil]

theorem messagesOf_own {parcel : Parcel} {sent : List Parcel} (own : run.Own parcel) :
    messagesOf heard run.srv.self (sent ++ [parcel]) k = messagesOf heard run.srv.self sent k ++
      if parcel.msg.stepID = k then [stepMessage run.srv.self parcel.msg] else [] := by
  obtain ⟨toSelf, isMessage⟩ := own
  simp only [messagesOf, mails_append, List.filter_append, List.map_append, List.append_assoc]
  congr 2
  by_cases here : parcel.msg.stepID = k <;> simp [mails, isMessage, toSelf, here]

theorem messagesOf_arrival (sender self : NodeID) (msg : MpcMessage) (sent : List Parcel) :
    (messagesOf (heard ++ [(sender, msg)]) self sent k).Perm
      ((if msg.stepID = k then [stepMessage sender msg] else []) ++
        messagesOf heard self sent k) := by
  simp only [messagesOf, List.filter_append, List.map_append, ← List.append_assoc]
  refine List.Perm.append_right _ ?_
  by_cases here : msg.stepID = k
  · simp [here, List.perm_append_singleton]
  · simp [here]

/-- Every move does one of these things to a step. -/
theorem Does.affects (does : Does kenv cfg run action next) (prompt : run.Prompt action)
    (found : run.ctx.mpcSteps[k]? = some step) :
    ∃ step', next.ctx.mpcSteps[k]? = some step' ∧ Affects kenv cfg run k step
      (run.entered heard k) step' (next.entered (heard ++ action.arrival) k) := by
  unfold entered
  cases does with
  -- moves of the main process between steps, or of the locks, touch no channel
  | turns | quits | loopPanics | quitter | quitterEnds =>
    simp only [Action.arrival, List.append_nil]
    exact ⟨step, found, .unchanged⟩
  | sends isPc away =>
    simp only [Action.arrival, List.append_nil, messagesOf_away away]
    exact ⟨step, found, .unchanged⟩
  | @fails choice error peerID rest isPc =>
    have away : ¬run.Own ⟨peerID, .mpcError, ⟨run.ctx.contextID, 0, error.error, [], []⟩⟩ := by
      simp [Own]
    simp only [Action.arrival, List.append_nil, messagesOf_away away]
    exact ⟨step, found, .unchanged⟩
  | startsLoop isPc there | skipsLoop isPc there | waits isPc there =>
    simp only [Action.arrival, List.append_nil]
    exact affects_of_set found there fun _ => .leaves rfl
  | stops isPc there =>
    simp only [Action.arrival, List.append_nil]
    refine affects_of_set found there fun _ => .leaves ?_
    simp [List.reduceOption_append]
  | loopStops there loops head =>
    simp only [Action.arrival, List.append_nil]
    refine affects_of_set found there fun _ => .leaves ?_
    rw [head, List.reduceOption_cons_of_none]
  | loopRounds there loops head round =>
    simp only [Action.arrival, List.append_nil]
    exact affects_of_set found there fun _ => .rounds loops head round
  -- Quit puts the stop marker or a result, neither of them a message
  | quitPuts isPc there put | quitterPuts isQuitter there put =>
    simp only [Action.arrival, List.append_nil]
    refine affects_of_set found there fun _ => ?_
    cases put with
    | message => exact .leaves (by simp [List.reduceOption_append])
    | finish => exact .leaves rfl
  | inits isPc there inits =>
    simp only [Action.arrival, List.append_nil]
    exact affects_of_set found there fun _ => .inits inits
  | finishes isPc there finishes =>
    obtain ⟨_, rfl⟩ := StepBody.finish_srv finishes
    simp only [Action.arrival, List.append_nil]
    exact affects_of_set found there fun _ => .finishes finishes
  -- its own message enters at the end of the channel
  | @sendsOwn choice i parcel rest stepJ isPc own isContext there room =>
    simp only [Action.arrival, List.append_nil, setStep_srv, messagesOf_own own]
    refine affects_of_put found there (.inr ⟨i, _, isPc⟩) rfl (fun here => ?_) fun other => ?_
    · rw [if_pos here]
      exact List.perm_append_singleton _ _
    · rw [if_neg other, List.append_nil]
  -- what arrives is heard and put on the channel in one move
  | @arrives sender msg stepJ isContext there room =>
    have perm : (messagesOf (heard ++ [(sender, msg)]) run.srv.self run.sent k).Perm _ :=
      messagesOf_arrival sender run.srv.self msg run.sent
    refine affects_of_put found there (.inl prompt) rfl (fun here => ?_) fun other => ?_
    · rw [if_pos here] at perm
      exact perm
    · have none : [(sender, msg)].filter (fun entry => entry.2.stepID = k) = [] := by simp [other]
      simp only [messagesOf, Action.arrival, List.filter_append, none, List.append_nil]
      rfl

end
end ContextRun

/-! ### Messages that a step counts -/

/-- One message at most of each peer, all of them legible, for peers with seeds. -/
structure Fair (peers : List PeerInfo) (kind : StepKind) (msgs : List StepMessage) : Prop where
  once : (msgs.map StepMessage.peerID).Nodup
  known : ∀ msg ∈ msgs, msg.peerID ∈ peers.map PeerInfo.peerID
  legible : ∀ msg ∈ msgs, kind.reads ≤ msg.data.length ∧ kind.Proper msg
  seeds : msgs ≠ [] → (peers.map PeerInfo.seed).Nodup ∧ ∀ peer ∈ peers, peer.seed ≠ 0

section

variable {peers peers' : List PeerInfo} {kind : StepKind} {msgs all : List StepMessage}

theorem Fair.nil : Fair peers kind [] :=
  ⟨List.nodup_nil, by simp, by simp, fun nonempty => absurd rfl nonempty⟩

theorem Fair.mono (fair : Fair peers' kind all) (fewer : msgs.Subperm all)
    (same : msgs ≠ [] → peers' = peers) : Fair peers kind msgs := by
  by_cases none : msgs = []
  · rw [none]
    exact .nil
  · obtain rfl := same none
    refine ⟨?_, fun msg member => fair.known msg (fewer.subset member),
      fun msg member => fair.legible msg (fewer.subset member), fun _ => fair.seeds ?_⟩
    · obtain ⟨list, perm, sublist⟩ := fewer
      exact (perm.map StepMessage.peerID).nodup_iff.mp ((sublist.map _).nodup fair.once)
    · rintro rfl
      exact none (List.subperm_nil.mp fewer)

theorem StepBody.Gathered.accepts {body body' : StepBody} {msg : StepMessage}
    {rest : List StepMessage} {accepted : Bool} (gathered : body.Gathered peers msgs)
    (fair : Fair peers body.kind (msgs ++ msg :: rest))
    (handled : body.handleMessage peers msg = .ok (accepted, body')) : accepted = true := by
  have member : msg ∈ msgs ++ msg :: rest := by simp
  obtain ⟨seeds, nonzero⟩ := fair.seeds (by simp)
  by_cases distinguishes : body.kind.Distinguishes
  · have known (m : StepMessage) (counted : m ∈ msgs) : m.peerID ∈ peers.map PeerInfo.peerID :=
      fair.known m (List.mem_append_left _ counted)
    obtain ⟨after, decided, -⟩ := handles seeds known (fair.known msg member) nonzero
      gathered.collected distinguishes (fair.legible msg member).1
    have fresh : msg.peerID ∉ msgs.map StepMessage.peerID := by
      have once := fair.once
      rw [List.map_append, List.map_cons] at once
      exact fun again => (List.nodup_append.mp once).2.2 _ again _ List.mem_cons_self rfl
    rw [handled] at decided
    rw [(Prod.mk.inj (Outcome.ok.inj decided)).1]
    exact decide_eq_true ⟨(fair.legible msg member).2, fresh⟩
  · cases body with
    | ackMpc | ready | getReady =>
      cases handled
      rfl
    | _ => exact absurd trivial distinguishes

theorem StepBody.Gathered.rebase {body : StepBody} (gathered : body.Gathered peers []) :
    body.Gathered peers' [] := by
  obtain ⟨collected, apart⟩ := gathered
  constructor
  · cases body <;> exact collected
  · cases body <;> exact apart

end

/-! ### The account of a step -/

namespace ContextRun

/-- What has been put on the channel of step `k` is on it, or has been counted, or was refused. -/
structure Account (heard : List (NodeID × MpcMessage)) (W : Int) (k : Nat) (run : ContextRun)
    (step : Step) (msgs : List StepMessage) : Prop where
  found : run.ctx.mpcSteps[k]? = some step
  stepId : step.stepId = k
  waiting : step.waiting = W - msgs.length
  gathered : step.body.Gathered run.ctx.peers msgs
  entered : (msgs ++ step.msgChan.reduceOption).Subperm (run.entered heard k)
  early : ¬run.Drawn → run.entered heard k = []

/-- Nothing has been refused while the step still waited. -/
def Complete (heard : List (NodeID × MpcMessage)) (k : Nat) (run : ContextRun) (step : Step)
    (msgs : List StepMessage) : Prop :=
  0 < step.waiting →
    (run.entered heard k).length ≤ msgs.length + step.msgChan.reduceOption.length

section

variable {kenv : KeyEnv} {cfg : Config} {run next : ContextRun} {action : Action} {k : Nat}
  {step : Step} {heard : List (NodeID × MpcMessage)} {W : Int} {msgs : List StepMessage}
  {leader : Bool}

theorem mem_entered {msg : StepMessage} (member : msg ∈ run.entered heard k) :
    (∃ entry ∈ heard, entry.2.stepID = k ∧ msg = stepMessage entry.1 entry.2) ∨
      ∃ parcel ∈ run.sent, parcel.msgCode = .mpcMessage ∧ parcel.receiver = run.srv.self ∧
        parcel.msg.stepID = k ∧ msg = stepMessage run.srv.self parcel.msg := by
  rcases List.mem_append.mp member with other | own
  · obtain ⟨entry, listed, rfl⟩ := List.mem_map.mp other
    obtain ⟨isEntry, isStep⟩ := List.mem_filter.mp listed
    exact .inl ⟨entry, isEntry, of_decide_eq_true isStep, rfl⟩
  · obtain ⟨mail, listed, rfl⟩ := List.mem_map.mp own
    obtain ⟨isMail, here⟩ := List.mem_filter.mp listed
    obtain ⟨parcel, sent, isMessage, rfl⟩ := mem_mails_iff.mp isMail
    obtain ⟨toSelf, isStep⟩ := of_decide_eq_true here
    exact .inr ⟨parcel, sent, isMessage, toSelf, isStep, rfl⟩

theorem stepId_of_entered {msg : StepMessage} (member : msg ∈ run.entered heard k) :
    msg.stepId = k := by
  rcases mem_entered member with ⟨_, _, isStep, rfl⟩ | ⟨_, _, _, _, isStep, rfl⟩ <;> exact isStep

theorem drawn_of_inited
    (kinds : (run.ctx.mpcSteps.map Step.body).map StepBody.kind = gpkKinds leader)
    (inited : run.pc.Inited 0) : run.Drawn := by
  intro j step found isKind
  have listed : (gpkKinds leader)[j]? = some (.request .mpcGPKLeader) := by
    rw [← kinds, List.getElem?_map, List.getElem?_map, found]
    exact congrArg some isKind
  obtain rfl := (gpkKinds_index listed).2 _ rfl
  exact inited

/-- What becomes of the count, before the seeds are looked at. -/
theorem Affects.account {step' : Step} {entered entered' : List StepMessage}
    (affects : Affects kenv cfg run k step entered step' entered')
    (numbered : ∀ msg ∈ entered, msg.stepId = k) (stepId : step.stepId = k)
    (waiting : step.waiting = W - msgs.length)
    (gathered : step.body.Gathered run.ctx.peers msgs)
    (counted : (msgs ++ step.msgChan.reduceOption).Subperm entered) :
    ∃ msgs', step'.stepId = k ∧ step'.waiting = W - msgs'.length ∧
      step'.body.Gathered run.ctx.peers msgs' ∧
      (msgs' ++ step'.msgChan.reduceOption).Subperm entered' ∧
      (Fair run.ctx.peers step.body.kind entered → 0 < step'.waiting →
        entered.length ≤ msgs.length + step.msgChan.reduceOption.length →
        entered'.length ≤ msgs'.length + step'.msgChan.reduceOption.length) := by
  cases affects with
  | leaves same =>
    refine ⟨msgs, stepId, waiting, gathered, ?_, fun _ _ complete => ?_⟩
    · rw [same]
      exact counted
    · rw [same]
      exact complete
  | @enters msg _ drawn isStep perm =>
    refine ⟨msgs, stepId, waiting, gathered, ?_, fun _ _ complete => ?_⟩
    · simp only [List.reduceOption_append, ← List.append_assoc]
      refine (List.Perm.subperm ?_).trans
        (((List.subperm_cons msg).mpr counted).trans perm.symm.subperm)
      exact List.perm_append_singleton _ _
    · rw [perm.length_eq, List.length_cons]
      simp only [List.reduceOption_append, List.length_append, List.reduceOption_cons_of_some,
        List.reduceOption_nil, List.length_cons, List.length_nil]
      omega
  | inits inits =>
    exact ⟨msgs, stepId, waiting, gathered.initStep inits, counted, fun _ _ complete => complete⟩
  | finishes finishes =>
    obtain ⟨_, finished, -⟩ := StepBody.finish_cases finishes
    exact ⟨msgs, stepId, waiting, gathered.finishStep finished, counted,
      fun _ _ complete => complete⟩
  | @rounds msg rest _ loops head round =>
    -- the message is off the channel, and either counted or not
    rw [head, List.reduceOption_cons_of_some] at counted ⊢
    have fewer : (msgs ++ rest.reduceOption).Subperm entered :=
      (((List.sublist_cons_self _ _).append_left _).subperm).trans counted
    have longer : (msgs ++ [msg] ++ rest.reduceOption).Subperm entered := by
      rwa [List.append_assoc]
    have count : ((msgs ++ [msg]).length : Int) = msgs.length + 1 := by simp
    cases round with
    | ignored idle =>
      refine ⟨msgs, stepId, waiting, gathered, fewer, fun _ waits => ?_⟩
      -- it is a message for this step, and the step still waits
      have here : msg.stepId = k := numbered msg (counted.subset (by simp))
      simp only at waits
      omega
    | refused same waits handled =>
      refine ⟨msgs, stepId, waiting, gathered.handleMessage handled, fewer, fun fair => ?_⟩
      -- a fair message is not refused
      have accepted := gathered.accepts (fair.mono counted fun _ => rfl) handled
      cases accepted
    | accepted same waits handled | last same waits room handled =>
      refine ⟨msgs ++ [msg], stepId, ?_, gathered.handleMessage handled, longer, fun _ _ => ?_⟩
      · simp only [count]
        omega
      · simp only [List.length_append, List.length_cons, List.length_nil]
        omega

theorem Affects.entered_subperm {step' : Step} {entered entered' : List StepMessage}
    (affects : Affects kenv cfg run k step entered step' entered') : entered.Subperm entered' := by
  cases affects with
  | enters drawn isStep perm =>
    exact (List.sublist_cons_self _ _).subperm.trans perm.symm.subperm
  | leaves | rounds | inits | finishes => exact .refl _

theorem Affects.undrawn {step' : Step} {entered entered' : List StepMessage}
    (affects : Affects kenv cfg run k step entered step' entered')
    (kinds : (run.ctx.mpcSteps.map Step.body).map StepBody.kind = gpkKinds leader)
    (undrawn : ¬run.Drawn) : entered' = entered := by
  cases affects with
  | enters drawn isStep perm =>
    rcases drawn with isDrawn | ⟨i, parcels, isPc⟩
    · exact absurd isDrawn undrawn
    · exact absurd (drawn_of_inited kinds (by rw [isPc]; exact Nat.zero_le i)) undrawn
  | leaves | rounds | inits | finishes => rfl

/-- One move keeps the account, and refuses nothing that is fair. -/
theorem Does.account (does : Does kenv cfg run action next) (prompt : run.Prompt action)
    (kinds : (run.ctx.mpcSteps.map Step.body).map StepBody.kind = gpkKinds leader)
    (account : run.Account heard W k step msgs) :
    ∃ step' msgs', next.Account (heard ++ action.arrival) W k step' msgs' ∧
      step'.body.kind = step.body.kind ∧
      (run.entered heard k).Subperm (next.entered (heard ++ action.arrival) k) ∧
      (Fair run.ctx.peers step.body.kind (run.entered heard k) → run.Complete heard k step msgs →
        next.Complete (heard ++ action.arrival) k step' msgs') := by
  obtain ⟨step', found', affects⟩ := @Does.affects _ _ _ _ _ _ _ heard does prompt account.found
  obtain ⟨before, found, becomes⟩ := does.becomes found'
  cases account.found.symm.trans found
  obtain ⟨msgs', stepId', waiting', gathered', counted', complete'⟩ := affects.account
    (fun _ member => stepId_of_entered member) account.stepId account.waiting account.gathered
    account.entered
  have early (undrawn : ¬run.Drawn) : next.entered (heard ++ action.arrival) k = [] :=
    (affects.undrawn kinds undrawn).trans (account.early undrawn)
  refine ⟨step', msgs', ⟨found', stepId', waiting', ?_, counted', fun undrawn => ?_⟩,
    becomes.kind, affects.entered_subperm, fun fair complete waits => ?_⟩
  · by_cases drawn : run.Drawn
    · rw [does.peers drawn]
      exact gathered'
    · rw [early drawn, List.subperm_nil, List.append_eq_nil_iff] at counted'
      rw [counted'.1] at gathered' ⊢
      exact gathered'.rebase
  · exact early fun drawn => undrawn (does.drawn drawn)
  · exact complete' fair waits (complete (waits.trans_le becomes.waiting_le))

end
end ContextRun

section Runs

variable {kenv : KeyEnv} {cfg : Config} {Meets : ContextRun → Action → Prop} {leader : Bool}
  {srv : MpcDistributor} {ctx : MpcContext} {heard : List (NodeID × MpcMessage)} {run : ContextRun}
  (start : GpkStart leader ctx)

include start

theorem GpkStart.kinds_of_runs
    (runs : ContextRun.Runs kenv cfg Meets (.start srv ctx) heard run) :
    (run.ctx.mpcSteps.map Step.body).map StepBody.kind = gpkKinds leader := by
  have reaches : ContextRun.Reaches kenv cfg (fun sender msg => (sender, msg) ∈ heard)
      (.start srv ctx) run :=
    Relation.ReflTransGen.mono (fun _ _ => ContextRun.Within.moves) _ _ runs.within
  exact (start.path reaches).2

/-- Every state of a run has its account, and fair messages are counted completely. -/
theorem GpkStart.account {k : Nat} {base : Step} (found : ctx.mpcSteps[k]? = some base)
    (stepId : base.stepId = k) (fresh : base.Fresh ctx.peers)
    (runs : ContextRun.Runs kenv cfg ContextRun.Prompt (.start srv ctx) heard run) :
    ∃ step msgs, run.Account heard base.waiting k step msgs ∧
      step.body.kind = base.body.kind ∧
      (Fair run.ctx.peers base.body.kind (run.entered heard k) →
        run.Complete heard k step msgs) := by
  refine runs.invariant (fun heard run => ∃ step msgs, run.Account heard base.waiting k step msgs ∧
      step.body.kind = base.body.kind ∧
      (Fair run.ctx.peers base.body.kind (run.entered heard k) →
        run.Complete heard k step msgs)) ?_ ?_
  · obtain ⟨collected, -, quiet⟩ := fresh
    refine ⟨base, [], ⟨found, stepId, by simp, ⟨collected, ?_⟩, ?_, fun _ => rfl⟩, rfl,
      fun _ _ => Nat.zero_le _⟩
    · cases base.body.kind <;> simp [StepKind.Apart]
    · simp [quiet]
  · rintro heard run action next before ⟨step, msgs, account, isKind, complete⟩ permits prompt does
    obtain ⟨step', msgs', account', isKind', fewer, complete'⟩ :=
      does.account prompt (start.kinds_of_runs before) account
    refine ⟨step', msgs', account', isKind'.trans isKind, fun fair => ?_⟩
    have fairBefore : Fair run.ctx.peers base.body.kind (run.entered heard k) := by
      refine fair.mono fewer fun nonempty => does.peers ?_
      by_contra undrawn
      exact nonempty (account.early undrawn)
    rw [isKind] at complete'
    exact complete' fairBefore (complete fairBefore)

end Runs
end SchnorrMpc
