import SchnorrMpc.Mpc.Deployment
import SchnorrMpc.Properties.KeyTraces
import SchnorrMpc.Properties.Posting

/-!
# Messages that find their context

The leader is past its request only when every follower has answered, and a
follower answers when its context is in the map. So whoever is sent a message of
a later step has a context, or has had one.

## Main results

* `Deployment.Sound`: what holds in every state of a key generation of honest nodes.
* `Deployment.Sound.context_of_letter`: a message of a later step finds a context.
-/
namespace SchnorrMpc

open Lib

variable {member : Member} {cfg : Config} {next node : Node} {action : Action}
  {arrives : NodeID → Nat × Parcel → Prop} {k : Nat} {p : NodeID} {letter : Letter}
  {srv : MpcDistributor}

/-! ### Answers to requests -/

section Answers

variable {venv : ValEnv} {cfg : Config} {srv : MpcDistributor} {msg : MpcMessage}

theorem answerRequest_gpk {nType nByApprove : Int} {rest : List Int}
    (isData : msg.data = nType :: nByApprove :: rest)
    (isKey : int64 nType = CtxType.mpcGPKLeader.code) :
    answerRequest venv cfg srv false msg = some (do
      let peers ← derefPeers srv msg
      createContext cfg .mpcGPKPeer msg.contextID peers []) := by
  unfold answerRequest createMpcCtx prepareMpcCtx
  simp only [NodeM.contextExists_bind, Prog.call_bind, isData, Outcome.index_cons_zero,
    Outcome.index_cons_succ, Prog.done_ok_bind, isKey, if_true, Bool.false_eq_true, if_false]
  cases derefPeers srv msg <;> rfl

/-- A context comes from the peers that the request lists. -/
theorem answerRequest_eq_ok {ctx : MpcContext}
    (answered : answerRequest venv cfg srv false msg = some (.ok ctx)) :
    ∃ peers, derefPeers srv msg = .ok peers ∧
      createContext cfg .mpcGPKPeer msg.contextID peers [] = .ok ctx := by
  unfold answerRequest createMpcCtx prepareMpcCtx at answered
  simp only [NodeM.contextExists_bind, Prog.call_bind, Bool.false_eq_true, if_false] at answered
  cases isType : (Outcome.index msg.data 0 : Go Int) with
  | err | panic => simp [isType] at answered
  | ok nType =>
    cases isApprove : (Outcome.index msg.data 1 : Go Int) with
    | err | panic => simp [isType, isApprove] at answered
    | ok nByApprove =>
      by_cases isKey : int64 nType = CtxType.mpcGPKLeader.code
      · simp only [isType, isApprove, Prog.done_ok_bind, isKey, if_true] at answered
        cases isPeers : derefPeers srv msg with
        | err | panic => simp [isPeers] at answered
        | ok peers =>
          simp only [isPeers, Prog.done_ok_bind, Prog.pure_eq] at answered
          exact ⟨peers, rfl, Option.some.inj answered⟩
      · -- a signing loads the account first, which is a call
        exfalso
        simp only [isType, isApprove, Prog.done_ok_bind, isKey, if_false] at answered
        cases isM : (Outcome.index msg.bytesData 0 : Go Bytes) with
        | err | panic => simp [isM] at answered
        | ok mpcM =>
          cases isAddress : (Outcome.index msg.bytesData 1 : Go Bytes) with
          | err | panic => simp [isM, isAddress] at answered
          | ok address =>
            cases isExt : (Outcome.index msg.bytesData 2 : Go Bytes) with
            | err | panic => simp [isM, isAddress, isExt] at answered
            | ok mpcExt =>
              cases isAdd : pkToAddress venv.toEnv address with
              | err | panic => simp [isM, isAddress, isExt, isAdd] at answered
              | ok add => simp [isM, isAddress, isExt, isAdd] at answered

end Answers

/-! ### One node -/

def Letter.entry (letter : Letter) : NodeID × MpcMessage := (letter.sender, letter.parcel.msg)

/-- The run that the node has of the context, in the map or not any more. -/
def Member.Has (member : Member) (run : ContextRun) : Prop :=
  member = .registered run ∨ member = .removed run

theorem Member.sent_of_has {run : ContextRun} (has : member.Has run) : member.sent = run.sent := by
  rcases has with rfl | rfl <;> rfl

theorem Member.find_eq_some {contextID : Nat} {run : ContextRun}
    (found : member.find contextID = some run) :
    member = .registered run ∧ run.ctx.contextID = contextID := by
  cases member with
  | registered other =>
    simp only [find] at found
    split at found
    next same =>
      cases found
      exact ⟨rfl, same⟩
    next => cases found
  | idle | created | removed => cases found

theorem ContextRun.Does.sent_append {kenv : KeyEnv} {run next : ContextRun}
    (does : Does kenv cfg run action next) : ∃ more, next.sent = run.sent ++ more := by
  cases does with
  | sends | sendsOwn | fails => exact ⟨_, rfl⟩
  | turns | startsLoop | skipsLoop | inits | waits | stops | finishes | quits | quitPuts | loopStops
  | loopRounds | loopPanics | arrives | quitter | quitterEnds | quitterPuts =>
    exact ⟨[], (List.append_nil _).symm⟩

namespace Node

/-- What the arrival of a letter makes of a node. -/
inductive Takes (env : NodeEnv) (cfg : Config) (node : Node) (letter : Letter) : Node → Prop where
  | drops
      (requests : letter.parcel.msgCode = .requestMPC → ∀ srv, node.member = .idle srv →
        ∃ error, answerRequest env.toValEnv cfg srv false letter.parcel.msg = some (.err error))
      (messages : letter.parcel.msgCode = .mpcMessage →
        node.member.find letter.parcel.msg.contextID = none) :
      Takes env cfg node letter { node with taken := node.taken ++ [letter] }
  | answers {srv : MpcDistributor} {ctx : MpcContext} (isMember : node.member = .idle srv)
      (asks : letter.parcel.msgCode = .requestMPC)
      (answered : answerRequest env.toValEnv cfg srv false letter.parcel.msg = some (.ok ctx)) :
      Takes env cfg node letter
        { node with member := .created srv ctx, taken := node.taken ++ [letter] }
  | hears {run next : ContextRun} (isMember : node.member = .registered run)
      (isMessage : letter.parcel.msgCode = .mpcMessage)
      (stepped : run.step env.toKeyEnv cfg (.getMessage letter.sender letter.parcel.msg) =
        some next) :
      Takes env cfg node letter
        ⟨.registered next, node.taken ++ [letter], node.heard ++ [letter]⟩
  | quits {run next : ContextRun} (isMember : node.member = .registered run)
      (isError : letter.parcel.msgCode = .mpcError)
      (stepped : run.step env.toKeyEnv cfg (.quitMpcContext letter.parcel.msg.peers) = some next) :
      Takes env cfg node letter
        { node with member := .registered next, taken := node.taken ++ [letter] }

variable {env : NodeEnv} {cfg : Config} {node next : Node} {letter : Letter}

theorem takes_of_request {after : Member} (asks : letter.parcel.msgCode = .requestMPC)
    (answered : node.member.requestMPC env.toValEnv cfg letter.parcel.msg = some after) :
    Takes env cfg node letter { node with member := after, taken := node.taken ++ [letter] } := by
  have noMessage : letter.parcel.msgCode ≠ .mpcMessage := by simp [asks]
  cases isMember : node.member with
  | idle srv =>
    simp only [isMember, Member.requestMPC] at answered
    split at answered
    next ctx answer =>
      cases answered
      exact .answers isMember asks answer
    next error answer =>
      cases answered
      rw [← isMember]
      refine .drops (fun _ other same => ?_) fun isMessage => absurd isMessage noMessage
      cases isMember.symm.trans same
      exact ⟨error, answer⟩
    next => cases answered
  | registered run =>
    simp only [isMember, Member.requestMPC] at answered
    split at answered
    next =>
      cases answered
      rw [← isMember]
      refine .drops (fun _ other same => ?_) fun isMessage => absurd isMessage noMessage
      cases isMember.symm.trans same
    next => cases answered
  | created | removed =>
    simp only [isMember, Member.requestMPC] at answered
    cases answered

theorem takes_of_take (took : node.take env cfg letter = some next) :
    Takes env cfg node letter next := by
  unfold take at took
  simp only at took
  split at took
  next asks =>
    obtain ⟨after, answered, rfl⟩ := Option.map_eq_some_iff.mp took
    exact takes_of_request asks answered
  next isMessage =>
    split at took
    next unknown =>
      cases took
      exact .drops (fun asks => by cases isMessage.symm.trans asks) fun _ => unknown
    next run found =>
      obtain ⟨after, stepped, rfl⟩ := Option.map_eq_some_iff.mp took
      exact .hears (Member.find_eq_some found).1 isMessage stepped
  next isError =>
    have other : letter.parcel.msgCode ≠ .requestMPC ∧ letter.parcel.msgCode ≠ .mpcMessage := by
      simp [isError]
    split at took
    next =>
      cases took
      exact .drops (fun asks => absurd asks other.1) fun isMessage => absurd isMessage other.2
    next run found =>
      split at took
      next =>
        cases took
        exact .drops (fun asks => absurd asks other.1) fun isMessage => absurd isMessage other.2
      next =>
        obtain ⟨after, stepped, rfl⟩ := Option.map_eq_some_iff.mp took
        exact .quits (Member.find_eq_some found).1 isError stepped

theorem same_of_step {run after : ContextRun} (isMember : node.member = .registered run)
    (stepped : run.step env.toKeyEnv cfg action = some after) :
    after.srv.self = node.member.srv.self ∧ ∃ more, after.sent = node.member.sent ++ more := by
  have does := ContextRun.step_does stepped
  rw [isMember]
  exact ⟨does.self, does.sent_append⟩

theorem Takes.same (takes : Takes env cfg node letter next) :
    next.member.srv.self = node.member.srv.self ∧
      ∃ more, next.member.sent = node.member.sent ++ more := by
  cases takes with
  | drops => exact ⟨rfl, [], (List.append_nil _).symm⟩
  | answers isMember =>
    rw [isMember]
    exact ⟨rfl, [], rfl⟩
  | hears isMember isMessage stepped => exact same_of_step isMember stepped
  | quits isMember isError stepped => exact same_of_step isMember stepped

section

variable (moves : Moves env cfg arrives node next)

include moves

theorem Moves.same :
    next.member.srv.self = node.member.srv.self ∧
      ∃ more, next.member.sent = node.member.sent ++ more := by
  cases moves with
  | register isMember =>
    rw [isMember]
    exact ⟨rfl, [], rfl⟩
  | act isMember internal permits stepped => exact same_of_step isMember stepped
  | remove isMember =>
    rw [isMember]
    exact ⟨rfl, [], (List.append_nil _).symm⟩
  | take comes once took => exact (takes_of_take took).same

/-- A move takes one letter that has not been taken, or none. -/
theorem Moves.letters :
    next.taken = node.taken ∧ next.heard = node.heard ∨
      ∃ letter : Letter, arrives letter.sender (letter.number, letter.parcel) ∧
        letter ∉ node.taken ∧ next.taken = node.taken ++ [letter] ∧
        (next.heard = node.heard ∨
          letter.parcel.msgCode = .mpcMessage ∧ next.heard = node.heard ++ [letter]) := by
  cases moves with
  | register | act | remove => exact .inl ⟨rfl, rfl⟩
  | @take letter _ comes once took =>
    refine .inr ⟨letter, comes, once, ?_⟩
    cases takes_of_take took with
    | drops | answers | quits => exact ⟨rfl, .inl rfl⟩
    | hears isMember isMessage => exact ⟨rfl, .inr ⟨isMessage, rfl⟩⟩

theorem Moves.sends {receiver : NodeID} {item : Nat × Parcel} (sends : node.Sends receiver item) :
    next.Sends receiver item := by
  obtain ⟨self, more, sent⟩ := moves.same
  obtain ⟨found, isReceiver, other⟩ := sends
  refine ⟨?_, isReceiver, self ▸ other⟩
  rw [sent, List.getElem?_append_left (List.getElem?_eq_some_iff.mp found).1, found]

end

end Node

/-! ### Whole deployments -/

/-- Where the context of a node comes from: its own request, or the one that it has answered. -/
def Node.Origin (env : NodeEnv) (cfg : Config) (leads : Bool) (mpcID : Nat) (srv : MpcDistributor)
    (taken : List Letter) (ctx : MpcContext) : Prop :=
  if leads then createRequestGPK cfg srv mpcID = .ok ctx
  else ∃ letter ∈ taken, letter.parcel.msgCode = .requestMPC ∧
    answerRequest env.toValEnv cfg srv false letter.parcel.msg = some (.ok ctx)

/-- What a node has done since the start, where the moves of its run meet a condition. -/
inductive Node.History (env : NodeEnv) (cfg : Config) (Meets : ContextRun → Action → Prop)
    (leads : Bool) (mpcID : Nat) (srv : MpcDistributor) : Node → Prop where
  | idle {taken : List Letter} (follows : leads = false) :
      History env cfg Meets leads mpcID srv ⟨.idle srv, taken, []⟩
  | created {ctx : MpcContext} {taken : List Letter}
      (origin : Origin env cfg leads mpcID srv taken ctx) :
      History env cfg Meets leads mpcID srv ⟨.created srv ctx, taken, []⟩
  | registered {ctx : MpcContext} {run : ContextRun} {taken heard : List Letter}
      (origin : Origin env cfg leads mpcID srv taken ctx)
      (runs : ContextRun.Runs env.toKeyEnv cfg Meets (.start srv ctx)
        (heard.map Letter.entry) run) :
      History env cfg Meets leads mpcID srv ⟨.registered run, taken, heard⟩
  | removed {ctx : MpcContext} {run : ContextRun} {taken heard : List Letter}
      {result : Option Err} (origin : Origin env cfg leads mpcID srv taken ctx)
      (runs : ContextRun.Runs env.toKeyEnv cfg Meets (.start srv ctx) (heard.map Letter.entry) run)
      (returned : run.pc = .returned result) :
      History env cfg Meets leads mpcID srv ⟨.removed run, taken, heard⟩

theorem createContext_contextID {ctxType : CtxType} {mpcID : Nat} {peers : List PeerInfo}
    {preSetValue : List MpcValue} {created : MpcContext}
    (returned : createContext cfg ctxType mpcID peers preSetValue = .ok created) :
    created.contextID = mpcID := by
  obtain ⟨_, rfl⟩ := createContext_eq returned
  rfl

theorem prompt_of_internal {run : ContextRun} (internal : action.Internal) : run.Prompt action := by
  cases action with
  | mainMPCProcess => exact internal
  | messageLoop | quitterSend => trivial
  | getMessage | quitMpcContext => exact internal.elim

theorem arrival_of_internal (internal : action.Internal) : action.arrival = [] := by
  cases action with
  | getMessage => exact internal.elim
  | mainMPCProcess | messageLoop | quitMpcContext | quitterSend => rfl

theorem decodePeers_ne_nil {group : List NodeID} {peers : Bytes} (whole : 4 ≤ peers.length) :
    MpcDistributor.decodePeers group peers ≠ [] := by
  rcases peers with _ | ⟨index, _ | ⟨a, _ | ⟨b, _ | ⟨c, rest⟩⟩⟩⟩
  · cases whole
  all_goals simp [MpcDistributor.decodePeers] at whole ⊢

section Histories

variable {env : NodeEnv} {cfg : Config} {Meets : ContextRun → Action → Prop} {leads : Bool}
  {mpcID : Nat} {srv : MpcDistributor} {taken : List Letter} {ctx : MpcContext} {node : Node}
  {run : ContextRun}

theorem Node.Origin.created (origin : Node.Origin env cfg leads mpcID srv taken ctx) :
    createContext cfg (if leads then .mpcGPKLeader else .mpcGPKPeer) ctx.contextID ctx.peers [] =
      .ok ctx := by
  cases leads with
  | true =>
    have created : createRequestGPK cfg srv mpcID = .ok ctx := origin
    rw [createContext_contextID created, createContext_peers created]
    exact created
  | false =>
    obtain ⟨letter, -, -, answered⟩ := origin
    obtain ⟨peers, -, created⟩ := answerRequest_eq_ok answered
    rw [createContext_contextID created, createContext_peers created]
    exact created

theorem Node.Origin.peers_of_leader (origin : Node.Origin env cfg true mpcID srv taken ctx) :
    ctx.contextID = mpcID ∧ ctx.peers = srv.storeManGroup.map fun peerID => ⟨peerID, 0⟩ :=
  ⟨createContext_contextID origin, createContext_peers origin⟩

section

variable (origin : Node.Origin env cfg leads mpcID srv taken ctx)

include origin

theorem Node.Origin.peers_ne_nil (nonempty : srv.storeManGroup ≠ []) : ctx.peers ≠ [] := by
  cases leads with
  | true =>
    rw [origin.peers_of_leader.2]
    simpa using nonempty
  | false =>
    obtain ⟨letter, -, -, answered⟩ := origin
    obtain ⟨peers, isPeers, created⟩ := answerRequest_eq_ok answered
    rw [createContext_peers created]
    unfold derefPeers MpcDistributor.getMessagePeers at isPeers
    split at isPeers
    next list decoded =>
      cases isPeers
      split at decoded
      next => cases decoded
      next whole =>
        cases decoded
        exact decodePeers_ne_nil (by omega)
    next => cases isPeers

theorem Node.Origin.waits (nonempty : srv.storeManGroup ≠ []) {step : Step}
    (found : ctx.mpcSteps[k]? = some step) :
    step.stepId = k ∧ (gpkWaits leads ctx.peers.length)[k]? = some step.waiting := by
  obtain ⟨waits, ids⟩ := createContext_waits origin.created (origin.peers_ne_nil nonempty)
  constructor
  · have isId := congrArg (fun ids => ids[k]?) ids
    simp only [List.getElem?_map, found, Option.map_some] at isId
    have inside : k < 5 := by
      simpa using (List.getElem?_eq_some_iff.mp isId.symm).1
    rw [List.getElem?_range inside] at isId
    exact Option.some.inj isId
  · rw [← waits, List.getElem?_map, found]
    rfl

theorem Node.Origin.mono {more : List Letter} (kept : taken ⊆ more) :
    Node.Origin env cfg leads mpcID srv more ctx := by
  cases leads with
  | true => exact origin
  | false =>
    obtain ⟨letter, member, answers⟩ := origin
    exact ⟨letter, kept member, answers⟩

end

section

variable (history : node.History env cfg Meets leads mpcID srv)

include history

theorem Node.History.has_of_sent (some : node.member.sent ≠ []) : ∃ run, node.member.Has run := by
  cases history with
  | idle | created => exact absurd rfl some
  | registered => exact ⟨_, .inl rfl⟩
  | removed => exact ⟨_, .inr rfl⟩

theorem Node.History.runs (has : node.member.Has run) :
    ∃ ctx, Node.Origin env cfg leads mpcID srv node.taken ctx ∧
      ContextRun.Runs env.toKeyEnv cfg Meets (.start srv ctx)
        (node.heard.map Letter.entry) run := by
  cases history with
  | idle | created => rcases has with isMember | isMember <;> cases isMember
  | registered origin runs =>
    rcases has with isMember | isMember
    · cases isMember
      exact ⟨_, origin, runs⟩
    · cases isMember
  | removed origin runs =>
    rcases has with isMember | isMember
    · cases isMember
    · cases isMember
      exact ⟨_, origin, runs⟩

theorem Node.History.returned (isMember : node.member = .removed run) :
    ∃ result, run.pc = .returned result := by
  cases history with
  | removed origin runs returned =>
    cases isMember
    exact ⟨_, returned⟩
  | idle | created | registered => cases isMember

end

/-- One more move of the run of a registered context. -/
theorem Node.History.step {taken heard : List Letter} {next : ContextRun}
    (history : (Node.mk (.registered run) taken heard).History env cfg Meets leads mpcID srv)
    (more : List Letter) (permits : run.Permits (fun _ _ => True) action) (meets : Meets run action)
    (stepped : run.step env.toKeyEnv cfg action = some next)
    (arrival : action.arrival = more.map Letter.entry) {all : List Letter} (kept : taken ⊆ all) :
    (Node.mk (.registered next) all (heard ++ more)).History env cfg Meets leads mpcID srv := by
  obtain ⟨ctx, origin, runs⟩ := history.runs (.inl rfl)
  refine .registered (origin.mono kept) ?_
  rw [List.map_append, ← arrival]
  exact .move runs permits meets stepped

/-- A move goes on with the history of a node, if the run may do what it brings. -/
theorem Node.History.moves (history : node.History env cfg Meets leads mpcID srv)
    (moves : node.Moves env cfg arrives next)
    (internal : ∀ run action, node.member = .registered run → action.Internal → Meets run action)
    (hears : ∀ (letter : Letter) run, arrives letter.sender (letter.number, letter.parcel) →
      letter ∉ node.taken → letter.parcel.msgCode = .mpcMessage → node.member = .registered run →
        Meets run (.getMessage letter.sender letter.parcel.msg))
    (quits : ∀ (letter : Letter) run, arrives letter.sender (letter.number, letter.parcel) →
      letter.parcel.msgCode = .mpcError → node.member = .registered run →
        Meets run (.quitMpcContext letter.parcel.msg.peers)) :
    next.History env cfg Meets leads mpcID srv := by
  obtain ⟨member, taken, heard⟩ := node
  cases moves with
  | register isMember =>
    cases isMember
    cases history with
    | created origin => exact .registered origin .start
  | act isMember inside permits stepped =>
    cases isMember
    rw [← List.append_nil heard]
    exact history.step [] permits (internal _ _ rfl inside) stepped (arrival_of_internal inside)
      (List.Subset.refl _)
  | remove isMember returned =>
    cases isMember
    cases history with
    | registered origin runs => exact .removed origin runs returned
  | @take letter _ comes once took =>
    have kept : taken ⊆ taken ++ [letter] := List.subset_append_left ..
    cases Node.takes_of_take took with
    -- a letter for nobody changes nothing but what has been taken
    | drops =>
      cases history with
      | idle follows => exact .idle follows
      | created origin => exact .created (origin.mono kept)
      | registered origin runs => exact .registered (origin.mono kept) runs
      | removed origin runs returned => exact .removed (origin.mono kept) runs returned
    | answers isMember asks answered =>
      cases isMember
      cases history with
      | idle follows =>
        refine .created ?_
        subst follows
        exact ⟨_, List.mem_append_right _ (List.mem_singleton_self _), asks, answered⟩
    | hears isMember isMessage stepped =>
      cases isMember
      refine history.step [letter] ?_ ?_ stepped rfl kept
      · trivial
      · exact hears letter _ comes once isMessage rfl
    | quits isMember isError stepped =>
      cases isMember
      rw [← List.append_nil heard]
      refine history.step [] ?_ ?_ stepped rfl kept
      · trivial
      · exact quits letter _ comes isError rfl

end Histories

namespace Deployment

/-- The letter has been sent to the node. -/
def Posted (d : Deployment) (p : NodeID) (letter : Letter) : Prop :=
  ∃ node, d letter.sender = some node ∧ node.Sends p (letter.number, letter.parcel)

/-- What holds of one node of a key generation. -/
structure Fits (env : NodeEnv) (cfg : Config) (group : List NodeID) (leader : NodeID) (mpcID : Nat)
    (d : Deployment) (p : NodeID) (srv : MpcDistributor) (node : Node) : Prop where
  here : d p = some node
  configured : Configured group p srv
  self : node.member.srv.self = p
  history : node.History env cfg ContextRun.Prompt (decide (p = leader)) mpcID srv
  once : node.taken.Nodup
  heard : node.heard.Sublist node.taken
  messages : ∀ letter ∈ node.heard, letter.parcel.msgCode = .mpcMessage
  came : ∀ letter ∈ node.taken, d.Posted p letter

/-- What holds in every state of a key generation. -/
structure Sound (env : NodeEnv) (cfg : Config) (group : List NodeID) (leader : NodeID) (mpcID : Nat)
    (d : Deployment) : Prop where
  distinct : group.Nodup
  member : leader ∈ group
  outside : ∀ p, p ∉ group → d p = none
  inside : ∀ p ∈ group, ∃ srv node, Fits env cfg group leader mpcID d p srv node

variable {env : NodeEnv} {cfg : Config} {group : List NodeID} {leader : NodeID} {mpcID : Nat}
  {d d' : Deployment}

theorem Sound.sender (sound : Sound env cfg group leader mpcID d) (posted : d.Posted p letter) :
    letter.sender ∈ group ∧ p ≠ letter.sender ∧ letter.parcel.receiver = p ∧
      ∃ srv node run, Fits env cfg group leader mpcID d letter.sender srv node ∧
        node.member.Has run ∧ run.sent[letter.number]? = some letter.parcel := by
  obtain ⟨node, here, found, isReceiver, other⟩ := posted
  have inGroup : letter.sender ∈ group := by
    by_contra away
    rw [sound.outside _ away] at here
    cases here
  obtain ⟨srv, node', fits⟩ := sound.inside _ inGroup
  cases fits.here.symm.trans here
  have some : node.member.sent ≠ [] := by
    intro none
    rw [none] at found
    cases found
  obtain ⟨run, has⟩ := fits.history.has_of_sent some
  rw [Member.sent_of_has has] at found
  exact ⟨inGroup, fits.self ▸ other, isReceiver, srv, node, run, fits, has, found⟩

section Fits

variable {p : NodeID} {srv : MpcDistributor} {node : Node} {run : ContextRun}
  (fits : Fits env cfg group leader mpcID d p srv node) (has : node.member.Has run)

include fits has

theorem Fits.keeps : ∃ ctx, Node.Origin env cfg (decide (p = leader)) mpcID srv node.taken ctx ∧
    run.Keeps (decide (p = leader)) srv ctx := by
  obtain ⟨ctx, origin, runs⟩ := fits.history.runs has
  exact ⟨ctx, origin, runs.keeps origin.created⟩

theorem Fits.silent {parcel : Parcel} (sent : parcel ∈ run.sent)
    (isMessage : parcel.msgCode = .mpcMessage) :
    parcel.msg.stepID ≠ if p = leader then 0 else 1 := by
  obtain ⟨ctx, origin, runs⟩ := fits.history.runs has
  have kinds := (createContext_gpkStart origin.created).kinds
  refine (ContextRun.mute_of_within (k := if p = leader then 0 else 1) runs.within ?_).2.sent
    parcel sent isMessage
  intro step found
  have listed := congrArg (fun kinds => kinds[if p = leader then 0 else 1]?) kinds
  simp only [List.getElem?_map, found, Option.map_some] at listed
  by_cases leads : p = leader
  · simp only [leads, decide_true, if_true] at listed
    rw [Option.some.inj listed]
    trivial
  · simp only [leads, decide_false, if_false] at listed
    rw [Option.some.inj listed]
    trivial

end Fits

section

variable (sound : Sound env cfg group leader mpcID d)

include sound

theorem Sound.requester (posted : d.Posted p letter) (asks : letter.parcel.msgCode = .requestMPC) :
    letter.sender = leader := by
  obtain ⟨-, -, -, srv, node, run, fits, has, found⟩ := sound.sender posted
  obtain ⟨ctx, origin, keeps⟩ := fits.keeps has
  by_contra follows
  have member : letter.parcel ∈ run.posted := List.mem_append_left _ (List.mem_of_getElem? found)
  obtain ⟨-, kind, isKind, isCode, -⟩ := keeps.content.legible _ member (by simp [asks])
  rw [asks] at isCode
  cases kind with
  | request messageType =>
    have listed := List.mem_of_getElem? isKind
    simp [follows, gpkKinds] at listed
  | _ => cases isCode

theorem Sound.leader_sent (fits : Fits env cfg group leader mpcID d leader srv node)
    (posted : d.Posted leader letter) : node.member.sent ≠ [] := by
  obtain ⟨-, other, -, srv', node', run', fits', has', -⟩ := sound.sender posted
  obtain ⟨ctx', origin', -⟩ := fits'.keeps has'
  rw [decide_eq_false (Ne.symm other)] at origin'
  obtain ⟨request, taken, asks, -⟩ := origin'
  have came := fits'.came request taken
  have isLeader := sound.requester came asks
  obtain ⟨sender, here, found, -⟩ := came
  rw [isLeader] at here
  cases fits.here.symm.trans here
  intro none
  rw [none] at found
  cases found

theorem Sound.drawn {run : ContextRun} (fits : Fits env cfg group leader mpcID d p srv node)
    (has : node.member.Has run) (posted : d.Posted p letter) : run.Drawn := by
  obtain ⟨ctx, origin, keeps⟩ := fits.keeps has
  by_cases leads : p = leader
  · subst leads
    refine ContextRun.drawn_of_inited keeps.kinds (keeps.inited ?_)
    rw [← Member.sent_of_has has]
    exact sound.leader_sent fits posted
  · refine ContextRun.drawn_of_kinds fun step member isKind => ?_
    have listed : step.body.kind ∈ (run.ctx.mpcSteps.map Step.body).map StepBody.kind :=
      List.mem_map_of_mem (List.mem_map_of_mem member)
    rw [keeps.kinds, isKind] at listed
    simp [leads, gpkKinds] at listed

end

theorem Posted.moves (posted : d.Posted p letter) (moves : Moves env cfg group d d') :
    d'.Posted p letter := by
  obtain ⟨q, node, next, here, taken⟩ := moves
  obtain ⟨sender, there, sends⟩ := posted
  by_cases same : letter.sender = q
  · rw [same] at there
    cases here.symm.trans there
    exact ⟨next, by rw [same, Function.update_self], taken.sends sends⟩
  · exact ⟨sender, by rw [Function.update_of_ne same, there], sends⟩

theorem Sound.posted_of_arrives (sound : Sound env cfg group leader mpcID d)
    (comes : Network.Arrives (· ∈ group) Node.Sends d p letter.sender
      (letter.number, letter.parcel)) :
    d.Posted p letter := by
  obtain ⟨srv, sender, fits⟩ := sound.inside _ comes.1
  exact ⟨sender, fits.here, comes.2 sender fits.here⟩

/-- A move of the node itself. -/
theorem Fits.moves (sound : Sound env cfg group leader mpcID d)
    (fits : Fits env cfg group leader mpcID d p srv node)
    (taken : node.Moves env cfg (Network.Arrives (· ∈ group) Node.Sends d p) next) :
    Fits env cfg group leader mpcID (Function.update d p (some next)) p srv next := by
  have move : Moves env cfg group d (Function.update d p (some next)) :=
    .node d p node next fits.here taken
  have came (letter : Letter) (old : letter ∈ node.taken) :
      Deployment.Posted (Function.update d p (some next)) p letter :=
    (fits.came letter old).moves move
  have history := fits.history.moves taken (fun run action _ inside => prompt_of_internal inside)
    (fun letter run comes _ isMessage isMember =>
      sound.drawn fits (.inl isMember) (sound.posted_of_arrives comes))
    fun _ _ _ _ _ => trivial
  rcases taken.letters with ⟨same, sameHeard⟩ | ⟨letter, comes, fresh, more, heard⟩
  · refine ⟨Function.update_self .., fits.configured, taken.same.1.trans fits.self, history, ?_, ?_,
      ?_, ?_⟩
    · rw [same]
      exact fits.once
    · rw [same, sameHeard]
      exact fits.heard
    · rw [sameHeard]
      exact fits.messages
    · rw [same]
      exact came
  · refine ⟨Function.update_self .., fits.configured, taken.same.1.trans fits.self, history, ?_, ?_,
      ?_, ?_⟩
    · rw [more, ← List.concat_eq_append]
      exact fits.once.concat fresh
    · rw [more]
      rcases heard with same | ⟨-, heard⟩
      · rw [same]
        exact fits.heard.trans (List.sublist_append_left _ _)
      · rw [heard]
        exact fits.heard.append_right _
    · rcases heard with same | ⟨isMessage, heard⟩
      · rw [same]
        exact fits.messages
      · rw [heard]
        intro other member
        rcases List.mem_append.mp member with old | new
        · exact fits.messages other old
        · rw [List.mem_singleton.mp new]
          exact isMessage
    · rw [more]
      intro other member
      rcases List.mem_append.mp member with old | new
      · exact came other old
      · rw [List.mem_singleton.mp new]
        exact (sound.posted_of_arrives comes).moves move

theorem Fits.stays {q : NodeID} (fits : Fits env cfg group leader mpcID d p srv node)
    (other : p ≠ q) (moves : Moves env cfg group d (Function.update d q (some next))) :
    Fits env cfg group leader mpcID (Function.update d q (some next)) p srv node :=
  ⟨by rw [Function.update_of_ne other, fits.here], fits.configured, fits.self, fits.history,
    fits.once, fits.heard, fits.messages, fun letter taken => (fits.came letter taken).moves moves⟩

theorem Sound.moves (sound : Sound env cfg group leader mpcID d)
    (moves : Moves env cfg group d d') : Sound env cfg group leader mpcID d' := by
  have move := moves
  obtain ⟨q, node, next, here, taken⟩ := moves
  have inGroup : q ∈ group := by
    by_contra away
    rw [sound.outside _ away] at here
    cases here
  refine ⟨sound.distinct, sound.member, fun p away => ?_, fun p member => ?_⟩
  · have other : p ≠ q := by
      rintro rfl
      exact away inGroup
    rw [Function.update_of_ne other, sound.outside p away]
  · obtain ⟨srv, node', fits⟩ := sound.inside p member
    by_cases same : p = q
    · subst same
      cases fits.here.symm.trans here
      exact ⟨srv, next, fits.moves sound taken⟩
    · exact ⟨srv, node', fits.stays same move⟩

theorem Starts.sound (starts : Starts cfg group leader mpcID d) :
    Sound env cfg group leader mpcID d := by
  refine ⟨starts.distinct, starts.member, starts.nobody, fun p member => ?_⟩
  by_cases leads : p = leader
  · obtain ⟨srv, ctx, here, configured, created⟩ := starts.leads
    subst leads
    refine ⟨srv, _, here, configured, configured.1, .created ?_, List.nodup_nil,
      List.Sublist.refl _, by simp, by simp⟩
    simpa [Node.Origin] using created
  · obtain ⟨srv, here, configured⟩ := starts.follows p member leads
    exact ⟨srv, _, here, configured, configured.1, .idle (by simpa using leads), List.nodup_nil,
      List.Sublist.refl _, by simp, by simp⟩

section Fits

variable {p : NodeID} {srv : MpcDistributor} {node : Node} {run : ContextRun}
  (fits : Fits env cfg group leader mpcID d p srv node) (has : node.member.Has run)

include fits has

theorem Fits.heard_of_entered {msg : StepMessage}
    (member : msg ∈ run.entered (node.heard.map Letter.entry) (if p = leader then 0 else 1)) :
    ∃ letter ∈ node.heard, msg = ContextRun.stepMessage letter.sender letter.parcel.msg ∧
      letter.parcel.msg.stepID = if p = leader then 0 else 1 := by
  rcases ContextRun.mem_entered member with ⟨entry, isEntry, isStep, rfl⟩ |
    ⟨parcel, sent, isMessage, -, isStep, -⟩
  · obtain ⟨letter, heard, rfl⟩ := List.mem_map.mp isEntry
    exact ⟨letter, heard, rfl, isStep⟩
  · exact absurd isStep (fits.silent has sent isMessage)

end Fits

theorem Configured.perm (configured : Configured group p srv) : srv.storeManGroup.Perm group := by
  obtain ⟨-, raw, perm, rfl⟩ := configured
  exact MpcDistributor.initStoreManGroup_perm.trans perm

theorem Sound.ids_of_leader {run : ContextRun}
    (fits : Fits env cfg group leader mpcID d leader srv node) (has : node.member.Has run) :
    run.ctx.peers.map PeerInfo.peerID = srv.storeManGroup := by
  obtain ⟨ctx, origin, keeps⟩ := fits.keeps has
  rw [decide_eq_true rfl] at origin
  rw [keeps.ids, origin.peers_of_leader.2, List.map_map]
  exact List.map_id _

section

variable (sound : Sound env cfg group leader mpcID d)

include sound

/-- Every step of a run has its account. -/
theorem Sound.account {run : ContextRun} (fits : Fits env cfg group leader mpcID d p srv node)
    (has : node.member.Has run) (inside : k < 5) :
    ∃ step msgs W, (gpkWaits (decide (p = leader)) run.ctx.peers.length)[k]? = some W ∧
      run.Account (node.heard.map Letter.entry) W k step msgs ∧
      (gpkKinds (decide (p = leader)))[k]? = some step.body.kind ∧
      (Fair run.ctx.peers step.body.kind (run.entered (node.heard.map Letter.entry) k) →
        run.Complete (node.heard.map Letter.entry) k step msgs) := by
  obtain ⟨ctx, origin, runs⟩ := fits.history.runs has
  have start := createContext_gpkStart origin.created
  have length : ctx.mpcSteps.length = 5 := by
    simpa using congrArg List.length start.kinds
  have found : ctx.mpcSteps[k]? = some ctx.mpcSteps[k] := List.getElem?_eq_getElem (length ▸ inside)
  have nonempty : srv.storeManGroup ≠ [] := by
    intro none
    have listed := fits.configured.perm.mem_iff.mpr sound.member
    rw [none] at listed
    cases listed
  obtain ⟨isId, waits⟩ := origin.waits nonempty found
  obtain ⟨step, msgs, account, isKind, complete⟩ := start.account found isId
    (fresh_of_createContext origin.created _ _ (List.mem_of_getElem? found)) runs
  have length : run.ctx.peers.length = ctx.peers.length := by
    simpa using congrArg List.length (runs.keeps origin.created).ids
  refine ⟨step, msgs, _, length ▸ waits, account, ?_, isKind ▸ complete⟩
  rw [isKind, ← start.kinds, List.getElem?_map, List.getElem?_map, found]
  rfl

/-- Once the leader is past its request, everybody has a run. -/
theorem Sound.everyone {run : ContextRun} (fits : Fits env cfg group leader mpcID d leader srv node)
    (has : node.member.Has run) (down : ∀ step, run.ctx.mpcSteps[0]? = some step → step.waiting ≤ 0)
    (member : p ∈ group) :
    ∃ srv node run, Fits env cfg group leader mpcID d p srv node ∧ node.member.Has run := by
  by_cases leads : p = leader
  · exact ⟨srv, node, run, leads ▸ fits, has⟩
  · obtain ⟨step, msgs, W, waits, account, isKind, -⟩ := sound.account (k := 0) fits has (by omega)
    simp only [decide_true] at waits isKind
    have peers : run.ctx.peers.length = group.length := by
      rw [← fits.configured.perm.length_eq, ← Sound.ids_of_leader fits has, List.length_map]
    -- the leader has counted an answer of everybody else
    have count : group.length - 1 ≤ msgs.length := by
      have isDown := down step account.found
      have total := account.waiting
      simp only [gpkWaits, if_true, List.cons_append, List.getElem?_cons_zero, Option.some.injEq,
        peers] at waits
      omega
    have apart : (msgs.map StepMessage.peerID).Nodup := by
      have gathered := account.gathered.apart
      rw [← Option.some.inj isKind] at gathered
      exact gathered
    have heard (q : NodeID) (counted : q ∈ msgs.map StepMessage.peerID) :
        ∃ letter, letter.sender = q ∧ d.Posted leader letter := by
      obtain ⟨msg, listed, rfl⟩ := List.mem_map.mp counted
      have entered := account.entered.subset (List.mem_append_left _ listed)
      obtain ⟨letter, isHeard, rfl, -⟩ := fits.heard_of_entered has (by simpa using entered)
      exact ⟨letter, rfl, fits.came letter (fits.heard.subset isHeard)⟩
    have others : msgs.map StepMessage.peerID ⊆ group.erase leader := by
      intro q counted
      obtain ⟨letter, rfl, posted⟩ := heard q counted
      obtain ⟨inGroup, other, -⟩ := sound.sender posted
      exact sound.distinct.mem_erase_iff.mpr ⟨other.symm, inGroup⟩
    have answered : p ∈ msgs.map StepMessage.peerID := by
      have all := (apart.subperm others).perm_of_length_le
        (by rw [List.length_erase_of_mem sound.member, List.length_map]; exact count)
      exact all.mem_iff.mpr (sound.distinct.mem_erase_iff.mpr ⟨leads, member⟩)
    obtain ⟨letter, rfl, posted⟩ := heard p answered
    obtain ⟨-, -, -, srv', node', run', fits', has', -⟩ := sound.sender posted
    exact ⟨srv', node', run', fits', has'⟩

/-- All runs of the key generation are under one id. -/
theorem Sound.contextID {run : ContextRun} (fits : Fits env cfg group leader mpcID d p srv node)
    (has : node.member.Has run) : run.ctx.contextID = mpcID := by
  -- the id of the leader is the one of its request
  have ofLeader {srv : MpcDistributor} {node : Node} {run : ContextRun}
      (fits : Fits env cfg group leader mpcID d leader srv node) (has : node.member.Has run) :
      run.ctx.contextID = mpcID := by
    obtain ⟨ctx, origin, keeps⟩ := fits.keeps has
    rw [decide_eq_true rfl] at origin
    rw [keeps.contextID, origin.peers_of_leader.1]
  by_cases leads : p = leader
  · subst leads
    exact ofLeader fits has
  · obtain ⟨ctx, origin, keeps⟩ := fits.keeps has
    rw [decide_eq_false leads] at origin
    obtain ⟨request, taken, asks, answered⟩ := origin
    obtain ⟨peers, -, created⟩ := answerRequest_eq_ok answered
    have came := fits.came request taken
    obtain ⟨-, -, -, srv', node', run', fits', has', found⟩ := sound.sender came
    rw [sound.requester came asks] at fits'
    obtain ⟨ctx', -, keeps'⟩ := fits'.keeps has'
    have legible := keeps'.content.legible request.parcel
      (List.mem_append_left _ (List.mem_of_getElem? found)) (by simp [asks])
    rw [keeps.contextID, createContext_contextID created, legible.context]
    exact ofLeader fits' has'

theorem Sound.context_of_posted (posted : d.Posted p letter)
    (speaks : letter.parcel.msgCode ≠ .mpcError) : letter.parcel.msg.contextID = mpcID := by
  obtain ⟨-, -, -, srv, node, run, fits, has, found⟩ := sound.sender posted
  obtain ⟨ctx, -, keeps⟩ := fits.keeps has
  have legible := keeps.content.legible letter.parcel
    (List.mem_append_left _ (List.mem_of_getElem? found)) speaks
  exact legible.context.trans (sound.contextID fits has)

/-- Whoever sends a message of a later step does so after the leader has its answers. -/
theorem Sound.leader_past (posted : d.Posted p letter)
    (isMessage : letter.parcel.msgCode = .mpcMessage) (later : 1 ≤ letter.parcel.msg.stepID) :
    ∃ srv node run, Fits env cfg group leader mpcID d leader srv node ∧ node.member.Has run ∧
      ∀ step, run.ctx.mpcSteps[0]? = some step → step.waiting ≤ 0 := by
  -- the leader itself has passed its first step
  have ofLeader {p : NodeID} {letter : Letter} (posted : d.Posted p letter)
      (isMessage : letter.parcel.msgCode = .mpcMessage) (later : 1 ≤ letter.parcel.msg.stepID)
      (isLeader : letter.sender = leader) :
      ∃ srv node run, Fits env cfg group leader mpcID d leader srv node ∧ node.member.Has run ∧
        ∀ step, run.ctx.mpcSteps[0]? = some step → step.waiting ≤ 0 := by
    obtain ⟨-, -, -, srv, node, run, fits, has, found⟩ := sound.sender posted
    obtain ⟨ctx, -, keeps⟩ := fits.keeps has
    refine ⟨srv, node, run, isLeader ▸ fits, has, (keeps.gate 0).passed (.inr ?_)⟩
    exact ⟨letter.parcel, List.mem_of_getElem? found, isMessage, later⟩
  by_cases leads : letter.sender = leader
  · exact ofLeader posted isMessage later leads
  · -- a follower has heard the leader say that all are ready
    obtain ⟨-, -, -, srv, node, run, fits, has, found⟩ := sound.sender posted
    obtain ⟨ctx, -, keeps⟩ := fits.keeps has
    have sent := List.mem_of_getElem? found
    have second : 1 < letter.parcel.msg.stepID := by
      have silent := fits.silent has sent isMessage
      rw [if_neg leads] at silent
      omega
    obtain ⟨step, msgs, W, waits, account, -, -⟩ := sound.account (k := 1) fits has (by omega)
    have isDown := (keeps.gate 1).passed (.inr ⟨letter.parcel, sent, isMessage, second⟩) step
      account.found
    have counted : msgs ≠ [] := by
      rintro rfl
      have total := account.waiting
      simp only [gpkWaits, leads, decide_false] at waits
      cases waits
      simp at total
      omega
    obtain ⟨msg, rest, rfl⟩ := List.exists_cons_of_ne_nil counted
    have entered := account.entered.subset (List.mem_append_left _ List.mem_cons_self)
    obtain ⟨ready, isHeard, -, isStep⟩ := fits.heard_of_entered has (by rwa [if_neg leads])
    rw [if_neg leads] at isStep
    have came := fits.came ready (fits.heard.subset isHeard)
    have isReady := fits.messages ready isHeard
    refine ofLeader came isReady isStep.ge ?_
    -- no follower says so
    by_contra follows
    obtain ⟨-, -, -, srv', node', run', fits', has', found'⟩ := sound.sender came
    have silent := fits'.silent has' (List.mem_of_getElem? found') isReady
    rw [if_neg follows] at silent
    exact silent isStep

/-- A message of a later step finds the context of its receiver in the map, unless that one is
over: with an error, or because it has all messages of the step. -/
theorem Sound.context_of_letter (here : d p = some node) (posted : d.Posted p letter)
    (isMessage : letter.parcel.msgCode = .mpcMessage) (later : 1 ≤ letter.parcel.msg.stepID) :
    (∃ run, node.member.find letter.parcel.msg.contextID = some run) ∨
      ∃ run result, node.member = .removed run ∧ run.pc = .returned result ∧
        (result = none → ∀ step, run.ctx.mpcSteps[letter.parcel.msg.stepID]? = some step →
          step.waiting ≤ 0) := by
  obtain ⟨srvL, nodeL, runL, fitsL, hasL, down⟩ := sound.leader_past posted isMessage later
  have inGroup : p ∈ group := by
    by_contra away
    rw [sound.outside p away] at here
    cases here
  obtain ⟨srv, node', run, fits, has⟩ := sound.everyone fitsL hasL down inGroup
  cases fits.here.symm.trans here
  rcases has with isMember | isMember
  · left
    refine ⟨run, ?_⟩
    rw [isMember, Member.find, if_pos]
    rw [sound.contextID fits (.inl isMember), sound.context_of_posted posted (by simp [isMessage])]
  · right
    obtain ⟨ctx, -, keeps⟩ := fits.keeps (.inr isMember)
    obtain ⟨result, returned⟩ := fits.history.returned isMember
    refine ⟨run, result, isMember, returned, fun isNone step found => ?_⟩
    refine keeps.down ?_ step (List.mem_of_getElem? found)
    rw [returned, isNone]
    rfl

end

theorem Reaches.sound (starts : Starts cfg group leader mpcID d)
    (reaches : Reaches env cfg group d d') : Sound env cfg group leader mpcID d' := by
  induction reaches with
  | refl => exact starts.sound
  | tail _ last ih => exact ih.moves last

end Deployment

/-- Let the nodes of a group generate a key over a network that delivers what is sent, in any order
and at any time. A message of any step after the first finds the context of its receiver, unless
that one is over: with an error, or with all messages of the step. -/
theorem later_messages_find_context (env : NodeEnv) (cfg : Config) (group : List NodeID)
    (leader : NodeID) (mpcID : Nat) (d d' : Deployment)
    (starts : Deployment.Starts cfg group leader mpcID d)
    (reaches : Deployment.Reaches env cfg group d d') (p : NodeID) (node : Node)
    (here : d' p = some node) (letter : Letter) (inFlight : Deployment.InFlight d' p letter)
    (isMessage : letter.parcel.msgCode = .mpcMessage) (later : 1 ≤ letter.parcel.msg.stepID) :
    (∃ run, node.member.find letter.parcel.msg.contextID = some run) ∨
      ∃ run result, node.member = .removed run ∧ run.pc = .returned result ∧
        (result = none → ∀ step, run.ctx.mpcSteps[letter.parcel.msg.stepID]? = some step →
          step.waiting ≤ 0) :=
  (Deployment.Reaches.sound starts reaches).context_of_letter here inFlight.1 isMessage later

/-! ### Two nodes -/

namespace PairSample

open Deployment (Turn)

def env : NodeEnv :=
  { KeyFileSample.env with
    marshalData := fun _ => []
    unmarshalData := fun _ => .error (.new [])
    marshalKeys := fun _ => []
    unmarshalKeys := fun _ => .error (.new []) }

def nodes (leader : MpcContext) : Assoc NodeID Node :=
  [(1, ⟨.created traceServer leader, [], []⟩),
    (2, ⟨.idle { traceServer with self := 2 }, [], []⟩)]

def acts (p : NodeID) (actions : List Action) : List (NodeID × Turn) :=
  actions.map fun action => (p, .act action)

/-- A message of step `i` arrives and is handled. -/
def reads (p sender : NodeID) (number i : Nat) : List (NodeID × Turn) :=
  [(p, .take sender number), (p, .act (.messageLoop i))]

def peerChoice : Choice := { traceChoice with random := ⟨.ok 0, [], []⟩ }

/-- Up to where the leader has told the follower that all are ready. -/
def handshake : List (NodeID × Turn) :=
  (1, .register) :: acts 1 (traceChoice.moves 10)
    ++ [(2, .take 1 1), (2, .register)] ++ acts 2 (peerChoice.moves 15)
    ++ reads 1 2 0 0 ++ acts 1 (traceChoice.moves 14)

def run (packages : NodeEnv) (turns : List (NodeID × Turn)) : Option (Assoc NodeID Node) :=
  match createRequestGPK ⟨1, 2⟩ traceServer 7 with
  | .ok leader => Deployment.follow packages ⟨1, 2⟩ [1, 2] turns (nodes leader)
  | _ => none

theorem configured (p : NodeID) :
    Deployment.Configured [1, 2] p { traceServer with self := p } := by
  have sorted : ([1, 2] : List NodeID).mergeSort (fun p q => decide (p ≤ q)) = [1, 2] :=
    List.mergeSort_of_pairwise (by decide +kernel)
  have indexed : ([1, 2] : List NodeID).zipIdx.foldl
      (fun index entry => Assoc.assign index entry.1 (UInt8.ofNat entry.2)) [] =
      traceServer.storeManIndex := by
    decide +kernel
  have isGroup : traceServer.storeManGroup = [1, 2] := rfl
  refine ⟨rfl, { traceServer with self := p }, ?_, ?_⟩
  · rw [isGroup]
  · simp only [MpcDistributor.initStoreManGroup, isGroup, sorted, indexed]

theorem starts {leader : MpcContext}
    (created : createRequestGPK ⟨1, 2⟩ traceServer 7 = .ok leader) :
    Deployment.Starts ⟨1, 2⟩ [1, 2] 1 7 (Deployment.ofList (nodes leader)) where
  distinct := by decide +kernel
  member := List.mem_cons_self
  leads := ⟨traceServer, leader, by simp [Deployment.ofList, nodes], configured 1, created⟩
  follows p member other := by
    obtain rfl : p = 2 := List.mem_singleton.mp ((List.mem_cons.mp member).resolve_left other)
    exact ⟨_, by simp [Deployment.ofList, nodes, List.lookup_cons], configured 2⟩
  nobody p away := by
    cases found : Deployment.ofList (nodes leader) p with
    | none => rfl
    | some node =>
      have listed : p ∈ (nodes leader).map Prod.fst :=
        List.mem_map_of_mem (Assoc.mem_of_lookup found)
      exact absurd listed away

theorem reaches_of_run {packages : NodeEnv} {turns : List (NodeID × Turn)}
    {final : Assoc NodeID Node} (ran : run packages turns = some final) :
    ∃ leader, createRequestGPK ⟨1, 2⟩ traceServer 7 = .ok leader ∧
      Deployment.Reaches packages ⟨1, 2⟩ [1, 2] (Deployment.ofList (nodes leader))
        (Deployment.ofList final) := by
  unfold run at ran
  split at ran
  next leader created => exact ⟨leader, created, Deployment.reaches_of_follow ran⟩
  next => cases ran

private theorem handshake_posted :
    (run env handshake).map (fun nodes => ((nodes.lookup 1).map fun node =>
        (node.member.sent[3]?, node.member.srv.self), (nodes.lookup 2).map Node.taken)) =
      some (some (some ⟨2, .mpcMessage, ⟨7, 1, [], [1], []⟩⟩, 1),
        some [⟨1, 1, ⟨2, .requestMPC, ⟨7, 0, [0, 0, 0, 5, 1, 0, 0, 6], [0, 0], []⟩⟩⟩]) := by
  decide +kernel

end PairSample

theorem later_messages_find_context_pair :
    ∃ d d' node letter, Deployment.Starts ⟨1, 2⟩ [1, 2] 1 7 d ∧
      Deployment.Reaches PairSample.env ⟨1, 2⟩ [1, 2] d d' ∧ d' 2 = some node ∧
      Deployment.InFlight d' 2 letter ∧ letter.parcel.msg.stepID = 1 ∧
      ((∃ run, node.member.find letter.parcel.msg.contextID = some run) ∨
        ∃ run result, node.member = .removed run ∧ run.pc = .returned result ∧
          (result = none → ∀ step, run.ctx.mpcSteps[1]? = some step → step.waiting ≤ 0)) := by
  obtain ⟨nodes, ran, posted⟩ := Option.map_eq_some_iff.mp PairSample.handshake_posted
  obtain ⟨leader, created, reaches⟩ := PairSample.reaches_of_run ran
  obtain ⟨one, hereOne, sent⟩ := Option.map_eq_some_iff.mp (Prod.mk.inj posted).1
  obtain ⟨two, hereTwo, taken⟩ := Option.map_eq_some_iff.mp (Prod.mk.inj posted).2
  have inFlight : Deployment.InFlight (Deployment.ofList nodes) 2
      ⟨1, 3, ⟨2, .mpcMessage, ⟨7, 1, [], [1], []⟩⟩⟩ := by
    refine ⟨⟨one, hereOne, (Prod.mk.inj sent).1, rfl, ?_⟩, fun node here => ?_⟩
    · rw [(Prod.mk.inj sent).2]
      decide +kernel
    · cases hereTwo.symm.trans here
      rw [taken]
      decide +kernel
  exact ⟨_, _, two, _, PairSample.starts created, reaches, hereTwo, inFlight, rfl,
    later_messages_find_context PairSample.env ⟨1, 2⟩ [1, 2] 1 7 _ _ (PairSample.starts created)
      reaches 2 two hereTwo _ inFlight rfl le_rfl⟩

end SchnorrMpc
