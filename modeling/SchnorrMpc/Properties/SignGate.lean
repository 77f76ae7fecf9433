import SchnorrMpc.Properties.Gates
import SchnorrMpc.Properties.KeyFiles

/-!
# Nobody signs before the group is ready

A follower waits for the leader's word, and the leader for the acknowledgements
of the threshold. Both waits are over when the time is, since all steps of a
signing are told not to wait for everybody.
-/
namespace SchnorrMpc

open Lib

namespace ContextRun

/-- The time is not over while the request or the word of the leader is waited for, and
acknowledgements are those of peers. -/
def Heeds (run : ContextRun) (action : Action) : Prop :=
  run.Punctual 0 action ∧ run.Punctual 1 action ∧
    ∀ entry ∈ action.arrival, entry.2.stepID = 0 → entry.1 ∈ run.ctx.peers.map PeerInfo.peerID

instance (run : ContextRun) (action : Action) : Decidable (run.Heeds action) :=
  inferInstanceAs (Decidable (_ ∧ _ ∧ _))

variable {kenv : KeyEnv} {cfg : Config} {srv : MpcDistributor} {ctx : MpcContext}
  {heard : List (NodeID × MpcMessage)} {run : ContextRun}

theorem arrivals_of_heeds (runs : Runs kenv cfg Heeds (start srv ctx) heard run)
    (drawn : ∀ step ∈ ctx.mpcSteps, step.body.kind ≠ .request .mpcGPKLeader) :
    run.ctx.contextID = ctx.contextID ∧ ∀ entry ∈ heard, entry.2.contextID = ctx.contextID ∧
      (entry.2.stepID = 0 → entry.1 ∈ ctx.peers.map PeerInfo.peerID) := by
  refine runs.invariant (fun heard run => run.ctx.contextID = ctx.contextID ∧ ∀ entry ∈ heard,
    entry.2.contextID = ctx.contextID ∧
      (entry.2.stepID = 0 → entry.1 ∈ ctx.peers.map PeerInfo.peerID)) ?_ ?_
  · exact ⟨rfl, fun entry member => by cases member⟩
  · intro heard run action next before known _ heeds does
    refine ⟨does.contextID.trans known.1, fun entry member => ?_⟩
    rcases List.mem_append.mp member with old | new
    · exact known.2 entry old
    · constructor
      · cases does with
        | arrives isContext =>
          obtain rfl := List.mem_singleton.mp new
          exact isContext.trans known.1
        | _ => cases new
      · intro isFirst
        rw [← show run.ctx.peers = ctx.peers from
          (peers_of_within before.within (drawn_of_kinds drawn)).1]
        exact heeds.2.2 entry new isFirst

/-- Behind the gate of a silent step, as many messages have arrived as it waited for. -/
theorem arrivals_behind_gate (runs : Runs kenv cfg Heeds (start srv ctx) heard run)
    {leader : Bool} {peers : List PeerInfo} {poly : RandomPolynomialValue}
    (steps : ctx.mpcSteps = signSteps cfg leader peers poly) {k : Nat} {first : Step}
    (found : ctx.mpcSteps[k]? = some first) (gated : k = 0 ∨ k = 1)
    (silent : first.body.kind.Silent) (fresh : first.body.Gathered ctx.peers [])
    {parcel : Parcel} (sent : parcel ∈ run.sent) (isMessage : parcel.msgCode = .mpcMessage)
    (later : k < parcel.msg.stepID) :
    ∃ acks : List (NodeID × MpcMessage), acks ⊆ heard ∧ first.waiting ≤ acks.length ∧
      (∀ ack ∈ acks, ack.2.contextID = ctx.contextID ∧ ack.2.stepID = k ∧
        (k = 0 → ack.1 ∈ ctx.peers.map PeerInfo.peerID)) ∧
      (∀ messageType, first.body.kind = .request messageType → (acks.map Prod.fst).Nodup) := by
  have quiet : ∀ step ∈ ctx.mpcSteps, step.msgChan = [] ∧ step.finish = [] := by
    rw [steps]
    exact signSteps_quiet
  have drawn : ∀ step ∈ ctx.mpcSteps, step.body.kind ≠ .request .mpcGPKLeader := by
    rw [steps]
    exact signSteps_drawn
  have known := arrivals_of_heeds runs drawn
  have gate : run.Gate k := by
    refine gate_of_within k runs.within (fun _ _ heeds => ?_) fun step member =>
      (quiet step member).2
    rcases gated with rfl | rfl
    · exact heeds.1
    · exact heeds.2.1
  obtain ⟨step, msgs, counted⟩ := counted_of_within runs.within (drawn_of_kinds drawn)
    (inbox_of_empty fun step member => (quiet step member).1) (counted_of_fresh found fresh)
  -- a message of a later step has been sent, so the counter is down
  have down := gate.passed (.inr ⟨parcel, sent, isMessage, later⟩) step counted.found
  have silentHere : ∀ step, ctx.mpcSteps[k]? = some step → step.body.kind.Silent := by
    intro step here
    cases found.symm.trans here
    exact silent
  -- one arrival for each message that has been counted
  have arrived : ∀ m ∈ msgs, ∃ msg, (m.peerID, msg) ∈ heard ∧ msg.stepID = k := by
    intro m member
    obtain ⟨msg, was, isStep, -⟩ := counted.tally.heard m member
    exact ⟨msg, arrived_of_within runs.within silentHere was isStep, isStep⟩
  have : Nonempty MpcMessage := ⟨parcel.msg⟩
  choose! msgOf isHeard isStep using arrived
  refine ⟨msgs.map fun m => (m.peerID, msgOf m), ?_, ?_, ?_, ?_⟩
  · intro entry member
    obtain ⟨m, isMsg, rfl⟩ := List.mem_map.mp member
    exact isHeard m isMsg
  · rw [List.length_map]
    have waiting := counted.tally.waiting
    omega
  · intro entry member
    obtain ⟨m, isMsg, rfl⟩ := List.mem_map.mp member
    have entry := known.2 _ (isHeard m isMsg)
    exact ⟨entry.1, isStep m isMsg, fun isFirst => entry.2 ((isStep m isMsg).trans isFirst)⟩
  · intro messageType isRequest
    have apart := counted.tally.gathered.apart
    rw [counted.kind, isRequest] at apart
    rw [List.map_map]
    exact apart

end ContextRun

/-! ### Two nodes -/

namespace ReadySample

def peers : List PeerInfo := [⟨1, 5⟩, ⟨2, 6⟩]

def request : List MpcValue :=
  [⟨.mpcAddress, none, some []⟩, ⟨.mpcM, none, some [1]⟩, ⟨.mpcExt, none, some []⟩,
    ⟨.mpcByApprove, some [0], none⟩]

def server (self : NodeID) : MpcDistributor := { KeyFileSample.server 2 with self }

def played (Meets : ContextRun → Action → Prop) [∀ run action, Decidable (Meets run action)]
    (ctxType : CtxType) (self : NodeID) (actions : List Action) : Option ContextRun :=
  match createContext ⟨1, 2⟩ ctxType 7 peers request with
  | .ok ctx => ContextRun.replay KeyFileSample.env ⟨1, 2⟩ Meets actions (.start (server self) ctx)
  | _ => none

theorem runs_of_played {Meets : ContextRun → Action → Prop}
    [∀ run action, Decidable (Meets run action)] {ctxType : CtxType} {self : NodeID}
    {actions : List Action} {run : ContextRun}
    (ran : played Meets ctxType self actions = some run) :
    ∃ ctx, createContext ⟨1, 2⟩ ctxType 7 peers request = .ok ctx ∧
      ContextRun.Runs KeyFileSample.env ⟨1, 2⟩ Meets (.start (server self) ctx)
        (actions.flatMap Action.arrival) run := by
  unfold played at ran
  split at ran
  next ctx created => exact ⟨ctx, created, .replay .start ran⟩
  next => cases ran

def plain : Choice := .plain 2 []

/-- The follower as far as its nonce shares, after this wait for the leader. -/
def follows (wait : List Action) : List Action := plain.moves 16 ++ wait ++ plain.moves 4

/-- The leader as far as its word to the followers, after this wait for acknowledgements. -/
def leads (wait : List Action) : List Action := plain.moves 11 ++ wait ++ plain.moves 4

def mailOf (stepID : Nat) (run : ContextRun) : List Parcel :=
  run.sent.filter fun parcel => parcel.msgCode = .mpcMessage ∧ parcel.msg.stepID = stepID

theorem mem_of_mailOf {stepID : Nat} {run : ContextRun} {parcel : Parcel} {rest : List Parcel}
    (mail : mailOf stepID run = parcel :: rest) :
    parcel ∈ run.sent ∧ parcel.msgCode = .mpcMessage ∧ parcel.msg.stepID = stepID := by
  have member : parcel ∈ mailOf stepID run := mail ▸ List.mem_cons_self ..
  simpa [mailOf] using member

end ReadySample

/-- As long as no time-out ends these two waits and acknowledgements come from peers, a follower
sends nonce shares only after a word of the leader's step, and the leader that word only after
acknowledgements of distinct peers, as many as the threshold. -/
theorem signing_waits_for_group {kenv : KeyEnv} {cfg : Config} {mpcID : Nat}
    {peers : List PeerInfo} {preSetValue : List MpcValue} {ctx : MpcContext} {srv : MpcDistributor}
    {heard : List (NodeID × MpcMessage)} {run : ContextRun}
    (runs : ContextRun.Runs kenv cfg ContextRun.Heeds (.start srv ctx) heard run) :
    (createContext cfg .mpcSignPeer mpcID peers preSetValue = .ok ctx →
      ∀ parcel ∈ run.sent, parcel.msgCode = .mpcMessage → parcel.msg.stepID = 2 →
        ∃ word ∈ heard, word.2.contextID = mpcID ∧ word.2.stepID = 1) ∧
    (createContext cfg .mpcSignLeader mpcID peers preSetValue = .ok ctx →
      ∀ parcel ∈ run.sent, parcel.msgCode = .mpcMessage → parcel.msg.stepID = 1 →
        ∃ acks : List (NodeID × MpcMessage), acks ⊆ heard ∧ (acks.map Prod.fst).Nodup ∧
          cfg.mpcSchnrThr ≤ acks.length ∧ ∀ ack ∈ acks, ack.2.contextID = mpcID ∧
            ack.2.stepID = 0 ∧ ack.1 ∈ peers.map PeerInfo.peerID) := by
  constructor
  · intro created parcel sent isMessage isStep
    obtain ⟨poly, -, rfl⟩ := createContext_signSteps false created
    obtain ⟨words, isHeard, enough, known, -⟩ :=
      ContextRun.arrivals_behind_gate runs rfl (k := 1) rfl (.inr rfl) trivial
        ⟨trivial, trivial⟩ sent isMessage (isStep ▸ Nat.one_lt_two)
    have some : 0 < words.length := by
      have one : (1 : Int) ≤ words.length := enough
      omega
    obtain ⟨word, member⟩ := List.exists_mem_of_length_pos some
    exact ⟨word, isHeard member, (known word member).1, (known word member).2.1⟩
  · intro created parcel sent isMessage isStep
    obtain ⟨poly, -, rfl⟩ := createContext_signSteps true created
    have fresh : StepBody.Gathered peers [] (.request (.create .mpcSignLeader)) :=
      ⟨rfl, List.nodup_nil⟩
    obtain ⟨acks, isHeard, enough, known, apart⟩ :=
      ContextRun.arrivals_behind_gate runs rfl (k := 0) rfl (.inl rfl) trivial fresh sent isMessage
        (isStep ▸ Nat.zero_lt_one)
    refine ⟨acks, isHeard, apart _ rfl, enough, fun ack member => ?_⟩
    obtain ⟨isContext, isFirst, isPeer⟩ := known ack member
    exact ⟨isContext, isFirst, isPeer rfl⟩

open ReadySample in
/-- The follower has heard the leader, and the leader its one follower. -/
theorem signing_waits_for_group_two :
    (∃ ctx run parcel, createContext ⟨1, 2⟩ .mpcSignPeer 7 peers request = .ok ctx ∧
      ContextRun.Runs KeyFileSample.env ⟨1, 2⟩ ContextRun.Heeds (.start (server 2) ctx)
        [(1, ⟨7, 1, [], [1], []⟩)] run ∧
      parcel ∈ run.sent ∧ parcel.msg.stepID = 2 ∧
      ∃ word ∈ [((1 : NodeID), (⟨7, 1, [], [1], []⟩ : MpcMessage))],
        word.2.contextID = 7 ∧ word.2.stepID = 1) ∧
    ∃ ctx run parcel, createContext ⟨1, 2⟩ .mpcSignLeader 7 peers request = .ok ctx ∧
      ContextRun.Runs KeyFileSample.env ⟨1, 2⟩ ContextRun.Heeds (.start (server 1) ctx)
        [(2, ⟨7, 0, [], [3], []⟩)] run ∧
      parcel ∈ run.sent ∧ parcel.msg.stepID = 1 ∧
      ∃ acks : List (NodeID × MpcMessage), acks ⊆ [(2, ⟨7, 0, [], [3], []⟩)] ∧
        (1 : Int) ≤ acks.length := by
  constructor
  · have mail : (played ContextRun.Heeds .mpcSignPeer 2
        (follows (hears 1 ⟨7, 1, [], [1], []⟩ ++ plain.moves 1))).map (mailOf 2) =
        some [⟨1, .mpcMessage, ⟨7, 2, [], [2], []⟩⟩] := by
      decide +kernel
    obtain ⟨run, ran, isMail⟩ := Option.map_eq_some_iff.mp mail
    obtain ⟨ctx, created, runs⟩ := runs_of_played ran
    obtain ⟨sent, isMessage, isStep⟩ := mem_of_mailOf isMail
    exact ⟨ctx, run, _, created, runs, sent, isStep,
      (signing_waits_for_group runs).1 created _ sent isMessage isStep⟩
  · have mail : (played ContextRun.Heeds .mpcSignLeader 1
        (leads (hears 2 ⟨7, 0, [], [3], []⟩ ++ plain.moves 1))).map (mailOf 1) =
        some [⟨1, .mpcMessage, ⟨7, 1, [], [1], []⟩⟩] := by
      decide +kernel
    obtain ⟨run, ran, isMail⟩ := Option.map_eq_some_iff.mp mail
    obtain ⟨ctx, created, runs⟩ := runs_of_played ran
    obtain ⟨sent, isMessage, isStep⟩ := mem_of_mailOf isMail
    obtain ⟨acks, isHeard, -, enough, -⟩ :=
      (signing_waits_for_group runs).2 created _ sent isMessage isStep
    exact ⟨ctx, run, _, created, runs, sent, isStep, acks, isHeard, enough⟩

open ReadySample in
/-- Nothing has arrived when the time is over. The follower sends its nonce shares all the same, and
so does the leader its word. -/
theorem timeOut_opens_gates :
    (∃ ctx run parcel, createContext ⟨1, 2⟩ .mpcSignPeer 7 peers request = .ok ctx ∧
      ContextRun.Runs KeyFileSample.env ⟨1, 2⟩ (fun _ _ => True) (.start (server 2) ctx) [] run ∧
      parcel ∈ run.sent ∧ parcel.msgCode = .mpcMessage ∧ parcel.msg.stepID = 2) ∧
    ∃ ctx run parcel, createContext ⟨1, 2⟩ .mpcSignLeader 7 peers request = .ok ctx ∧
      ContextRun.Runs KeyFileSample.env ⟨1, 2⟩ (fun _ _ => True) (.start (server 1) ctx) [] run ∧
      parcel ∈ run.sent ∧ parcel.msgCode = .mpcMessage ∧ parcel.msg.stepID = 1 := by
  constructor
  · have mail : (played (fun _ _ => True) .mpcSignPeer 2 (follows plain.timesOut)).map (mailOf 2) =
        some [⟨1, .mpcMessage, ⟨7, 2, [], [2], []⟩⟩] := by
      decide +kernel
    obtain ⟨run, ran, isMail⟩ := Option.map_eq_some_iff.mp mail
    obtain ⟨ctx, created, runs⟩ := runs_of_played ran
    exact ⟨ctx, run, _, created, runs, mem_of_mailOf isMail⟩
  · have mail : (played (fun _ _ => True) .mpcSignLeader 1 (leads plain.timesOut)).map (mailOf 1) =
        some [⟨1, .mpcMessage, ⟨7, 1, [], [1], []⟩⟩] := by
      decide +kernel
    obtain ⟨run, ran, isMail⟩ := Option.map_eq_some_iff.mp mail
    obtain ⟨ctx, created, runs⟩ := runs_of_played ran
    exact ⟨ctx, run, _, created, runs, mem_of_mailOf isMail⟩

end SchnorrMpc
