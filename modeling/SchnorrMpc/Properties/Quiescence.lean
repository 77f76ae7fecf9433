import SchnorrMpc.Properties.Delivery
import SchnorrMpc.Properties.Standstill

/-!
# A key generation comes to its end

Every node sends one message of every step to every node, and whoever is sent a
message that counts has a context for it. So when nothing more can happen and
nobody has failed, no step is left that waits for anybody.

## Main results

* `Deployment.Sound.entered_once`: a step gets one message at most of every node.
* `Deployment.Reaches.peaceful`: without a failure every channel has room for what comes.
* `Deployment.Ends.finished`: when nothing more can happen, all nodes have finished.
-/
namespace SchnorrMpc

open Lib

variable {cfg : Config} {node other : Node} {request letter : Letter} {k i : Nat} {q : NodeID}
  {parcel : Parcel}

/-- A run that has failed is still there after a move, and has failed. -/
theorem Node.Moves.failed {env : NodeEnv} {arrives : NodeID → Nat × Parcel → Prop} {next : Node}
    {run : ContextRun} (moves : node.Moves env cfg arrives next) (has : node.member.Has run)
    (failed : run.pc.Failed) : ∃ run', next.member.Has run' ∧ run'.pc.Failed := by
  have step {other after : ContextRun} {action : Action}
      (isMember : node.member = .registered other)
      (stepped : other.step env.toKeyEnv cfg action = some after) : after.pc.Failed := by
    rcases has with isRun | isRun
    · cases isMember.symm.trans isRun
      exact (ContextRun.step_does stepped).failed failed
    · cases isMember.symm.trans isRun
  cases moves with
  | register isMember =>
    rcases has with isRun | isRun <;> cases isMember.symm.trans isRun
  | act isMember internal permits stepped => exact ⟨_, .inl rfl, step isMember stepped⟩
  | remove isMember =>
    rcases has with isRun | isRun
    · cases isMember.symm.trans isRun
      exact ⟨_, .inr rfl, failed⟩
    · cases isMember.symm.trans isRun
  | take comes once took =>
    cases Node.takes_of_take took with
    | drops => exact ⟨run, has, failed⟩
    | answers isMember => rcases has with isRun | isRun <;> cases isMember.symm.trans isRun
    | hears isMember isMessage stepped => exact ⟨_, .inl rfl, step isMember stepped⟩
    | quits isMember isError stepped => exact ⟨_, .inl rfl, step isMember stepped⟩

theorem Node.History.srv_of_idle {env : NodeEnv} {Meets : ContextRun → Action → Prop} {leads : Bool}
    {mpcID : Nat} {srv other : MpcDistributor}
    (history : node.History env cfg Meets leads mpcID srv) (isMember : node.member = .idle other) :
    other = srv := by
  cases history with
  | idle => exact (Member.idle.inj isMember).symm
  | created | registered | removed => cases isMember

theorem steady_of_internal {run : ContextRun} {action : Action} (internal : action.Internal) :
    run.Steady action := by
  cases action with
  | mainMPCProcess => exact ⟨internal, trivial⟩
  | messageLoop | quitterSend => exact ⟨trivial, trivial⟩
  | getMessage | quitMpcContext => exact internal.elim

namespace Deployment

variable {env : NodeEnv} {cfg : Config} {group : List NodeID} {leader : NodeID} {mpcID : Nat}
  {d d' : Deployment} {p : NodeID} {srv : MpcDistributor} {node : Node} {run : ContextRun}

theorem Sound.member_of_here (sound : Sound env cfg group leader mpcID d) (here : d p = some node) :
    p ∈ group := by
  by_contra away
  rw [sound.outside p away] at here
  cases here

theorem Fits.run_self (fits : Fits env cfg group leader mpcID d p srv node)
    (has : node.member.Has run) : run.srv.self = p := by
  have self := fits.self
  rcases has with isMember | isMember
  · rwa [isMember] at self
  · rwa [isMember] at self

theorem has_unique {run' : ContextRun} (has : node.member.Has run) (again : node.member.Has run') :
    run = run' := by
  rcases has with isMember | isMember <;> rcases again with other | other
  all_goals cases isMember.symm.trans other
  all_goals rfl

/-! ### Peers -/

/-- A request is read as the leader has written it. -/
theorem Sound.request_read (sound : Sound env cfg group leader mpcID d) (small : group.length ≤ 256)
    (configured : Configured group p srv) (posted : d.Posted p request)
    (asks : request.parcel.msgCode = .requestMPC) :
    ∃ srvL nodeL runL, Fits env cfg group leader mpcID d leader srvL nodeL ∧
      nodeL.member.Has runL ∧ SeedsDrawn runL.ctx.peers ∧
      request.parcel.msg.data = [CtxType.mpcGPKLeader.code, 0] ∧
      derefPeers srv request.parcel.msg = .ok runL.ctx.peers := by
  obtain ⟨-, -, -, srvL, nodeL, runL, fitsL, hasL, found⟩ := sound.sender posted
  rw [sound.requester posted asks] at fitsL
  obtain ⟨ctxL, -, keepsL⟩ := fitsL.keeps hasL
  obtain ⟨-, seeded, isMsg⟩ := keepsL.content.requests request.parcel
    (List.mem_append_left _ (List.mem_of_getElem? found)) asks
  refine ⟨srvL, nodeL, runL, fitsL, hasL, seeded, by rw [isMsg], ?_⟩
  have ids := Sound.ids_of_leader fitsL hasL
  obtain ⟨-, raw, perm, rfl⟩ := configured
  obtain ⟨-, rawL, permL, rfl⟩ := fitsL.configured
  -- the peers are written as indices, which the receiver looks up in the same sorted group
  have survives : raw.initStoreManGroup.getMessagePeers
      (rawL.initStoreManGroup.setMessagePeers runL.ctx.peers) = some runL.ctx.peers := by
    refine MpcDistributor.getMessagePeers_setMessagePeers (permL.trans perm.symm)
      (permL.nodup_iff.mpr sound.distinct) (permL.length_eq.trans_le small) ?_ ?_ ?_
    · intro none
      have listed := MpcDistributor.initStoreManGroup_perm.mem_iff.mpr
        (permL.mem_iff.mpr sound.member)
      rw [← ids, none] at listed
      cases listed
    · intro peer member
      refine MpcDistributor.initStoreManGroup_perm.mem_iff.mp (ids ▸ ?_)
      exact List.mem_map_of_mem member
    · intro peer member
      have := (seeded.range peer member).2
      omega
  rw [derefPeers, isMsg, survives]

theorem peers_of_follower {taken : List Letter} {ctx : MpcContext}
    {heard : List (NodeID × MpcMessage)}
    (origin : Node.Origin env cfg false mpcID srv taken ctx)
    (runs : ContextRun.Runs env.toKeyEnv cfg ContextRun.Prompt (.start srv ctx) heard run) :
    run.ctx.peers = ctx.peers := by
  have start := createContext_gpkStart origin.created
  refine (ContextRun.peers_of_within runs.within (ContextRun.drawn_of_kinds ?_)).1
  intro step member isKind
  have listed : step.body.kind ∈ (ctx.mpcSteps.map Step.body).map StepBody.kind :=
    List.mem_map_of_mem (List.mem_map_of_mem member)
  rw [start.kinds, isKind] at listed
  simp [gpkKinds] at listed

section

variable (sound : Sound env cfg group leader mpcID d)

include sound

/-- A follower has the peers that the leader has drawn seeds for. -/
theorem Sound.peers (small : group.length ≤ 256) (follows : p ≠ leader)
    (fits : Fits env cfg group leader mpcID d p srv node) (has : node.member.Has run) :
    ∃ srvL nodeL runL, Fits env cfg group leader mpcID d leader srvL nodeL ∧
      nodeL.member.Has runL ∧ run.ctx.peers = runL.ctx.peers ∧
      SeedsDrawn run.ctx.peers := by
  obtain ⟨ctx, origin, runs⟩ := fits.history.runs has
  rw [decide_eq_false follows] at origin
  have kept := peers_of_follower origin runs
  obtain ⟨request, taken, asks, answered⟩ := origin
  obtain ⟨peers, isPeers, created⟩ := answerRequest_eq_ok answered
  obtain ⟨srvL, nodeL, runL, fitsL, hasL, seeded, -, isRead⟩ :=
    sound.request_read small fits.configured (fits.came request taken) asks
  cases isPeers.symm.trans isRead
  have same : run.ctx.peers = runL.ctx.peers := kept.trans (createContext_peers created)
  exact ⟨srvL, nodeL, runL, fitsL, hasL, same, same ▸ seeded⟩

theorem Sound.kind_of_posted (posted : d.Posted p letter)
    (speaks : letter.parcel.msgCode ≠ .mpcError) :
    ∃ kind, (gpkKinds (decide (letter.sender = leader)))[letter.parcel.msg.stepID]? = some kind ∧
      letter.parcel.msgCode = kind.code := by
  obtain ⟨-, -, -, srv, node, run, fits, has, found⟩ := sound.sender posted
  obtain ⟨ctx, -, keeps⟩ := fits.keeps has
  obtain ⟨-, kind, isKind, isCode, -⟩ := keeps.content.legible letter.parcel
    (List.mem_append_left _ (List.mem_of_getElem? found)) speaks
  exact ⟨kind, isKind, isCode⟩

theorem Sound.step_of_request (posted : d.Posted p letter)
    (asks : letter.parcel.msgCode = .requestMPC) : letter.parcel.msg.stepID = 0 := by
  obtain ⟨kind, isKind, isCode⟩ := sound.kind_of_posted posted (by simp [asks])
  rw [asks] at isCode
  cases kind with
  | request messageType => exact (gpkKinds_index isKind).2 _ rfl
  | _ => cases isCode

theorem Sound.ids_perm (small : group.length ≤ 256)
    (fits : Fits env cfg group leader mpcID d p srv node) (has : node.member.Has run) :
    (run.ctx.peers.map PeerInfo.peerID).Perm group := by
  by_cases leads : p = leader
  · subst leads
    rw [Sound.ids_of_leader fits has]
    exact fits.configured.perm
  · obtain ⟨srvL, nodeL, runL, fitsL, hasL, same, -⟩ := sound.peers small leads fits has
    rw [same, Sound.ids_of_leader fitsL hasL]
    exact fitsL.configured.perm

end

/-! ### One message of every node -/

section

variable (sound : Sound env cfg group leader mpcID d) (small : group.length ≤ 256)

include sound small

theorem Sound.receivers_apart (fits : Fits env cfg group leader mpcID d p srv node)
    (has : node.member.Has run) (k : Nat) :
    run.sent.Pairwise fun x y => x.msgCode ≠ .mpcError ∧ x.msg.stepID = k →
      y.msgCode ≠ .mpcError ∧ y.msg.stepID = k → x.receiver ≠ y.receiver := by
  obtain ⟨ctx, -, keeps⟩ := fits.keeps has
  have once : ((mailOf k run.posted).map Parcel.receiver).Nodup :=
    (keeps.mailing _).once.nodup ((sound.ids_perm small fits has).nodup_iff.mpr sound.distinct)
  rw [List.Nodup, List.pairwise_map, mailOf, ContextRun.posted, List.filter_append] at once
  have sent := (List.pairwise_append.mp once).1
  rw [List.pairwise_filter] at sent
  simpa using sent

/-- A node sends one parcel of a step to another node. -/
theorem Sound.letter_eq {a b : Letter} (postedA : d.Posted p a) (postedB : d.Posted p b)
    (sender : a.sender = b.sender) (errorA : a.parcel.msgCode ≠ .mpcError)
    (errorB : b.parcel.msgCode ≠ .mpcError) (step : a.parcel.msg.stepID = b.parcel.msg.stepID) :
    a = b := by
  obtain ⟨-, -, toA, srv, node, run, fits, has, foundA⟩ := sound.sender postedA
  obtain ⟨-, -, toB, srvB, nodeB, runB, fitsB, hasB, foundB⟩ := sound.sender postedB
  rw [← sender] at fitsB
  cases fits.here.symm.trans fitsB.here
  cases has_unique hasB has
  have apart := sound.receivers_apart small fits has a.parcel.msg.stepID
  rw [List.pairwise_iff_getElem] at apart
  obtain ⟨insideA, isA⟩ := List.getElem?_eq_some_iff.mp foundA
  obtain ⟨insideB, isB⟩ := List.getElem?_eq_some_iff.mp foundB
  have sameReceiver : a.parcel.receiver = b.parcel.receiver := toA.trans toB.symm
  -- of two parcels to one receiver, one would be the earlier
  have number : a.number = b.number := by
    rcases Nat.lt_trichotomy a.number b.number with less | same | more
    · refine absurd sameReceiver ?_
      have differ := apart a.number b.number insideA insideB less
      rw [isA, isB] at differ
      exact differ ⟨errorA, rfl⟩ ⟨errorB, step.symm⟩
    · exact same
    · refine absurd sameReceiver.symm ?_
      have differ := apart b.number a.number insideB insideA more
      rw [isA, isB] at differ
      exact differ ⟨errorB, step.symm⟩ ⟨errorA, rfl⟩
  have parcel : a.parcel = b.parcel := by
    rw [number, foundB] at foundA
    exact (Option.some.inj foundA).symm
  obtain ⟨_, _, _⟩ := a
  obtain ⟨_, _, _⟩ := b
  simp_all

theorem Sound.own_once (fits : Fits env cfg group leader mpcID d p srv node)
    (has : node.member.Has run) (k : Nat) :
    (((mails run.sent).filter fun mail => mail.1 = run.srv.self ∧ mail.2.stepID = k).map
      fun _ => run.srv.self).Nodup := by
  rw [List.Nodup, List.pairwise_map, List.pairwise_filter, mails, List.pairwise_filterMap]
  refine (sound.receivers_apart small fits has k).imp ?_
  intro x y apart first isFirst second isSecond hereFirst hereSecond
  split at isFirst
  next isMessage =>
    split at isSecond
    next isMessage' =>
      cases isFirst
      cases isSecond
      simp only [decide_eq_true_eq] at hereFirst hereSecond
      exact absurd (hereFirst.1.trans hereSecond.1.symm)
        (apart ⟨by simp [isMessage], hereFirst.2⟩ ⟨by simp [isMessage'], hereSecond.2⟩)
    next => cases isSecond
  next => cases isFirst

end

theorem peerID_entered (run : ContextRun) (letters : List Letter) (k : Nat) :
    (run.entered (letters.map Letter.entry) k).map StepMessage.peerID =
      ((letters.filter fun letter => letter.parcel.msg.stepID = k).map Letter.sender) ++
        ((mails run.sent).filter fun mail => mail.1 = run.srv.self ∧ mail.2.stepID = k).map
          fun _ => run.srv.self := by
  simp only [ContextRun.entered, ContextRun.messagesOf, List.map_append, List.filter_map,
    List.map_map]
  rfl

section

variable (sound : Sound env cfg group leader mpcID d) (small : group.length ≤ 256)
  (fits : Fits env cfg group leader mpcID d p srv node) (has : node.member.Has run)

include sound small fits has

/-- A step gets one message at most of every node of the group. -/
theorem Sound.entered_once {letters : List Letter} (distinct : letters.Nodup)
    (came : ∀ letter ∈ letters, d.Posted p letter ∧ letter.parcel.msgCode = .mpcMessage) (k : Nat) :
    ((run.entered (letters.map Letter.entry) k).map StepMessage.peerID).Nodup ∧
      (run.entered (letters.map Letter.entry) k).map StepMessage.peerID ⊆ group := by
  have isSelf := fits.run_self has
  rw [peerID_entered]
  constructor
  · refine List.Nodup.append ?_ (sound.own_once small fits has k) ?_
    · refine List.Nodup.map_on ?_ (distinct.filter _)
      intro a isA b isB same
      obtain ⟨listedA, stepA⟩ := List.mem_filter.mp isA
      obtain ⟨listedB, stepB⟩ := List.mem_filter.mp isB
      obtain ⟨postedA, codeA⟩ := came a listedA
      obtain ⟨postedB, codeB⟩ := came b listedB
      exact sound.letter_eq small postedA postedB same (by simp [codeA]) (by simp [codeB])
        ((of_decide_eq_true stepA).trans (of_decide_eq_true stepB).symm)
    · -- no letter comes from the node itself
      intro q other own
      obtain ⟨letter, listed, rfl⟩ := List.mem_map.mp other
      obtain ⟨mail, -, isOwn⟩ := List.mem_map.mp own
      obtain ⟨-, differs, -⟩ := sound.sender (came letter (List.mem_of_mem_filter listed)).1
      exact differs (isSelf.symm.trans isOwn)
  · intro q isSender
    rcases List.mem_append.mp isSender with other | own
    · obtain ⟨letter, listed, rfl⟩ := List.mem_map.mp other
      exact (sound.sender (came letter (List.mem_of_mem_filter listed)).1).1
    · obtain ⟨mail, -, rfl⟩ := List.mem_map.mp own
      exact isSelf ▸ sound.member_of_here fits.here

theorem Sound.entered_lt (posted : d.Posted p letter) (fresh : letter ∉ node.taken)
    (isMessage : letter.parcel.msgCode = .mpcMessage) :
    (run.entered (node.heard.map Letter.entry) letter.parcel.msg.stepID).length < group.length := by
  have distinct : (letter :: node.heard).Nodup :=
    List.nodup_cons.mpr ⟨fun old => fresh (fits.heard.subset old), fits.heard.nodup fits.once⟩
  have came (other : Letter) (member : other ∈ letter :: node.heard) :
      d.Posted p other ∧ other.parcel.msgCode = .mpcMessage := by
    rcases List.mem_cons.mp member with rfl | old
    · exact ⟨posted, isMessage⟩
    · exact ⟨fits.came other (fits.heard.subset old), fits.messages other old⟩
  obtain ⟨once, known⟩ := sound.entered_once small fits has distinct came letter.parcel.msg.stepID
  have more : run.entered ((letter :: node.heard).map Letter.entry) letter.parcel.msg.stepID =
      ContextRun.stepMessage letter.sender letter.parcel.msg ::
        run.entered (node.heard.map Letter.entry) letter.parcel.msg.stepID := by
    simp [ContextRun.entered, ContextRun.messagesOf, Letter.entry]
  have all := (once.subperm known).length_le
  rwa [List.length_map, more, List.length_cons] at all

end

/-! ### Deployments without a failure -/

/-- No run has met an error. -/
def Unfailed (d : Deployment) : Prop :=
  ∀ p node run, d p = some node → node.member.Has run → ¬run.pc.Failed

theorem Moves.unfailed (moves : Moves env cfg group d d') (unfailed : d'.Unfailed) :
    d.Unfailed := by
  obtain ⟨q, node, next, here, taken⟩ := moves
  intro p other run there has failed
  by_cases same : p = q
  · subst same
    cases here.symm.trans there
    obtain ⟨run', has', failed'⟩ := taken.failed has failed
    exact unfailed p next run' (Function.update_self ..) has' failed'
  · exact unfailed p other run (by rw [Function.update_of_ne same, there]) has failed

theorem Sound.code_ne_mpcError (sound : Sound env cfg group leader mpcID d) (unfailed : d.Unfailed)
    (posted : d.Posted p letter) : letter.parcel.msgCode ≠ .mpcError := by
  intro isError
  obtain ⟨-, -, -, srv, node, run, fits, has, found⟩ := sound.sender posted
  obtain ⟨ctx, -, keeps⟩ := fits.keeps has
  exact unfailed _ node run fits.here has (keeps.content.errors letter.parcel
    (List.mem_append_left _ (List.mem_of_getElem? found)) isError)

theorem Sound.length_steps (fits : Fits env cfg group leader mpcID d p srv node)
    (has : node.member.Has run) : run.ctx.mpcSteps.length = 5 := by
  obtain ⟨ctx, -, keeps⟩ := fits.keeps has
  simpa using congrArg List.length keeps.kinds

theorem Sound.length_peers (sound : Sound env cfg group leader mpcID d) (small : group.length ≤ 256)
    (fits : Fits env cfg group leader mpcID d p srv node) (has : node.member.Has run) :
    run.ctx.peers.length = group.length := by
  simpa using (sound.ids_perm small fits has).length_eq

theorem Sound.messages_le (sound : Sound env cfg group leader mpcID d)
    (fits : Fits env cfg group leader mpcID d p srv node) (has : node.member.Has run) {step : Step}
    (found : run.ctx.mpcSteps[k]? = some step) :
    step.msgChan.reduceOption.length ≤ (run.entered (node.heard.map Letter.entry) k).length := by
  have inside : k < 5 := Sound.length_steps fits has ▸ (List.getElem?_eq_some_iff.mp found).1
  obtain ⟨step', msgs, W, -, account, -, -⟩ := sound.account fits has inside
  cases account.found.symm.trans found
  have counted := account.entered.length_le
  rw [List.length_append] at counted
  omega

/-- Every run has met nothing but messages that find room. -/
def Peaceful (env : NodeEnv) (cfg : Config) (group : List NodeID) (leader : NodeID) (mpcID : Nat)
    (d : Deployment) : Prop :=
  ∀ p node, d p = some node → ∃ srv, Configured group p srv ∧
    node.History env cfg ContextRun.Steady (decide (p = leader)) mpcID srv

theorem Sound.steady (sound : Sound env cfg group leader mpcID d) (small : group.length ≤ 256)
    (fits : Fits env cfg group leader mpcID d p srv node) (isMember : node.member = .registered run)
    (posted : d.Posted p letter) (fresh : letter ∉ node.taken)
    (isMessage : letter.parcel.msgCode = .mpcMessage) :
    run.Steady (.getMessage letter.sender letter.parcel.msg) := by
  refine ⟨sound.drawn fits (.inl isMember) posted, fun step found => ?_⟩
  have fewer := sound.entered_lt small fits (.inl isMember) posted fresh isMessage
  have enough := sound.messages_le fits (.inl isMember) found
  rw [sound.length_peers small fits (.inl isMember)]
  refine lt_of_le_of_lt ?_ (enough.trans_lt fewer)
  unfold Step.unread Mailbox.unread
  split
  · exact List.Sublist.length_le (List.Sublist.filterMap _ (List.dropWhile_sublist _))
  · exact le_rfl

theorem Peaceful.moves (peaceful : Peaceful env cfg group leader mpcID d)
    (sound : Sound env cfg group leader mpcID d) (small : group.length ≤ 256)
    (unfailed : d.Unfailed) (moves : Moves env cfg group d d') :
    Peaceful env cfg group leader mpcID d' := by
  obtain ⟨q, node, next, here, taken⟩ := moves
  intro p other there
  by_cases same : p = q
  · subst same
    rw [Function.update_self] at there
    cases there
    obtain ⟨srv, configured, history⟩ := peaceful p node here
    obtain ⟨srv', node', fits⟩ := sound.inside p (sound.member_of_here here)
    cases fits.here.symm.trans here
    refine ⟨srv, configured, history.moves taken (fun _ _ _ inside => steady_of_internal inside)
      (fun letter run comes fresh isMessage isMember =>
        sound.steady small fits isMember (sound.posted_of_arrives comes) fresh isMessage)
      fun letter run comes isError _ =>
        absurd isError (sound.code_ne_mpcError unfailed (sound.posted_of_arrives comes))⟩
  · rw [Function.update_of_ne same] at there
    exact peaceful p other there

theorem Starts.peaceful (starts : Starts cfg group leader mpcID d) :
    Peaceful env cfg group leader mpcID d := by
  intro p node here
  by_cases leads : p = leader
  · obtain ⟨srv, ctx, there, configured, created⟩ := starts.leads
    subst leads
    cases there.symm.trans here
    refine ⟨srv, configured, .created ?_⟩
    simpa [Node.Origin] using created
  · by_cases member : p ∈ group
    · obtain ⟨srv, there, configured⟩ := starts.follows p member leads
      cases there.symm.trans here
      exact ⟨srv, configured, .idle (by simpa using leads)⟩
    · rw [starts.nobody p member] at here
      cases here

theorem Reaches.peaceful (starts : Starts cfg group leader mpcID d) (small : group.length ≤ 256)
    (reaches : Reaches env cfg group d d') (unfailed : d'.Unfailed) :
    Peaceful env cfg group leader mpcID d' := by
  induction reaches with
  | refl => exact starts.peaceful
  | tail path last ih =>
    have before := Moves.unfailed last unfailed
    exact (ih before).moves (Reaches.sound starts path) small before last

/-! ### Letters that count are heard -/

/-- What a node has taken and what counts, it has heard, unless its context is over. A request has
made it create a context. -/
structure Attentive (leader : NodeID) (d : Deployment) : Prop where
  heard : ∀ p node letter, d p = some node → letter ∈ node.taken →
    letter.parcel.msgCode = .mpcMessage → (1 ≤ letter.parcel.msg.stepID ∨ p = leader) →
    letter ∈ node.heard ∨ ∃ run, node.member = .removed run
  answered : ∀ p node letter, d p = some node → letter ∈ node.taken →
    letter.parcel.msgCode = .requestMPC → ∀ srv, node.member ≠ .idle srv

/-- Every request of the leader is accepted. -/
theorem Sound.answered (sound : Sound env cfg group leader mpcID d) (small : group.length ≤ 256)
    (configured : Configured group p srv) (posted : d.Posted p request)
    (asks : request.parcel.msgCode = .requestMPC) :
    ∃ ctx, answerRequest env.toValEnv cfg srv false request.parcel.msg = some (.ok ctx) := by
  obtain ⟨srvL, nodeL, runL, fitsL, hasL, seeded, isData, isRead⟩ :=
    sound.request_read small configured posted asks
  have sensible : 0 ≤ cfg.mpcSchnrThr := by
    obtain ⟨ctxL, origin, -⟩ := fitsL.keeps hasL
    obtain ⟨poly, drawn, -⟩ := createContext_gpkSteps _ origin.created
    have fits := (createSkPolyValue_eq_ok drawn).1
    rw [Config.mpcDegree] at fits
    omega
  have checked : checkSeeds runL.ctx.peers [] = .ok () := by
    refine (checkSeeds_eq_ok_iff _ _).mpr ⟨fun peer member => ⟨?_, by simp⟩, seeded.distinct⟩
    have := (seeded.range peer member).2
    omega
  obtain ⟨ctx, created⟩ : ∃ ctx, ackGPKMpc cfg request.parcel.msg.contextID runL.ctx.peers [] =
      .ok ctx := (ackGPKMpc_of_checkSeeds checked).2 sensible
  refine ⟨ctx, ?_⟩
  rw [answerRequest_gpk isData (by decide), isRead]
  exact congrArg some created

/-- A letter that counts finds the context in the map, or the context is over. -/
theorem Sound.found_of_letter (sound : Sound env cfg group leader mpcID d)
    (fits : Fits env cfg group leader mpcID d p srv node) (posted : d.Posted p letter)
    (isMessage : letter.parcel.msgCode = .mpcMessage)
    (counts : 1 ≤ letter.parcel.msg.stepID ∨ p = leader) :
    (∃ run, node.member.find letter.parcel.msg.contextID = some run) ∨
      ∃ run, node.member = .removed run := by
  rcases counts with later | rfl
  · rcases sound.context_of_letter fits.here posted isMessage later with found |
      ⟨run, _, isMember, -⟩
    · exact .inl found
    · exact .inr ⟨run, isMember⟩
  · obtain ⟨run, has⟩ := fits.history.has_of_sent (sound.leader_sent fits posted)
    rcases has with isMember | isMember
    · left
      refine ⟨run, ?_⟩
      rw [isMember, Member.find, if_pos]
      rw [sound.contextID fits (.inl isMember),
        sound.context_of_posted posted (by simp [isMessage])]
    · exact .inr ⟨run, isMember⟩

theorem Attentive.moves (attentive : d.Attentive leader)
    (sound : Sound env cfg group leader mpcID d) (small : group.length ≤ 256)
    (moves : Moves env cfg group d d') : d'.Attentive leader := by
  obtain ⟨q, node, next, here, taken⟩ := moves
  obtain ⟨srv, node', fits⟩ := sound.inside q (sound.member_of_here here)
  cases fits.here.symm.trans here
  constructor
  · intro p other letter there member isMessage counts
    by_cases same : p = q
    · subst same
      -- the node that moves
      rw [Function.update_self] at there
      cases there
      have old := attentive.heard p node letter here
      -- what a node with its context still there has taken, it has heard
      have kept (was : letter ∈ node.taken) (lives : ∀ run, node.member ≠ .removed run) :
          letter ∈ node.heard :=
        (old was isMessage counts).resolve_right fun ⟨run, isRemoved⟩ => lives run isRemoved
      cases taken with
      | register isMember | act isMember =>
        exact .inl (kept member (by simp [isMember]))
      | remove => exact .inr ⟨_, rfl⟩
      | take comes once took =>
        have posted := sound.posted_of_arrives comes
        cases Node.takes_of_take took with
        | drops requests messages =>
          -- what the distributor drops has no context, so the context is gone
          rcases List.mem_append.mp member with was | new
          · exact old was isMessage counts
          · obtain rfl := List.mem_singleton.mp new
            rcases sound.found_of_letter fits posted isMessage counts with ⟨run, found⟩ | gone
            · rw [messages isMessage] at found
              cases found
            · exact .inr gone
        | answers isMember asks =>
          rcases List.mem_append.mp member with was | new
          · exact .inl (kept was (by simp [isMember]))
          · obtain rfl := List.mem_singleton.mp new
            cases asks.symm.trans isMessage
        | hears isMember =>
          rcases List.mem_append.mp member with was | new
          · exact .inl (List.mem_append_left _ (kept was (by simp [isMember])))
          · exact .inl (List.mem_append_right _ new)
        | quits isMember isError =>
          rcases List.mem_append.mp member with was | new
          · exact .inl (kept was (by simp [isMember]))
          · obtain rfl := List.mem_singleton.mp new
            cases isError.symm.trans isMessage
    · rw [Function.update_of_ne same] at there
      exact attentive.heard p other letter there member isMessage counts
  · intro p other letter there member asks srv' isIdle
    by_cases same : p = q
    · subst same
      rw [Function.update_self] at there
      cases there
      cases taken with
      | register | act | remove => cases isIdle
      | take comes once took =>
        cases Node.takes_of_take took with
        -- a node without a context drops a request only if it refuses it, and it never does
        | drops requests messages =>
          rcases List.mem_append.mp member with was | new
          · exact attentive.answered p node letter here was asks srv' isIdle
          · obtain rfl := List.mem_singleton.mp new
            obtain ⟨error, refused⟩ := requests asks srv' isIdle
            obtain rfl := fits.history.srv_of_idle isIdle
            obtain ⟨ctx, accepted⟩ := sound.answered small fits.configured
              (sound.posted_of_arrives comes) asks
            cases accepted.symm.trans refused
        | answers | hears | quits => cases isIdle
    · rw [Function.update_of_ne same] at there
      exact attentive.answered p other letter there member asks srv' isIdle

theorem Reaches.attentive (starts : Starts cfg group leader mpcID d) (small : group.length ≤ 256)
    (reaches : Reaches env cfg group d d') : d'.Attentive leader := by
  induction reaches with
  | refl =>
    have nothing (p : NodeID) (node : Node) (here : d p = some node) : node.taken = [] := by
      by_cases leads : p = leader
      · obtain ⟨srv, ctx, there, -⟩ := starts.leads
        rw [leads, there] at here
        cases here
        rfl
      · by_cases member : p ∈ group
        · obtain ⟨srv, there, -⟩ := starts.follows p member leads
          cases there.symm.trans here
          rfl
        · rw [starts.nobody p member] at here
          cases here
    constructor
    · intro p node letter here member
      rw [nothing p node here] at member
      cases member
    · intro p node letter here member
      rw [nothing p node here] at member
      cases member
  | tail path last ih => exact ih.moves (Reaches.sound starts path) small last

/-! ### When nothing more can happen -/

/-- What is needed of a deployment to tell how it ends. -/
structure Ends (env : NodeEnv) (cfg : Config) (group : List NodeID) (leader : NodeID) (mpcID : Nat)
    (d : Deployment) : Prop where
  sound : Sound env cfg group leader mpcID d
  small : group.length ≤ 256
  unfailed : d.Unfailed
  peaceful : Peaceful env cfg group leader mpcID d
  attentive : d.Attentive leader
  quiet : d.Quiet env cfg group

theorem Ends.of_reaches (small : group.length ≤ 256) (starts : Starts cfg group leader mpcID d)
    (reaches : Reaches env cfg group d d') (quiet : d'.Quiet env cfg group)
    (unfailed : d'.Unfailed) : Ends env cfg group leader mpcID d' :=
  ⟨reaches.sound starts, small, unfailed, reaches.peaceful starts small unfailed,
    reaches.attentive starts small, quiet⟩

section

variable (ends : Ends env cfg group leader mpcID d)

include ends

theorem Ends.not_moves (here : d p = some node) {next : Node} :
    ¬node.Moves env cfg (Network.Arrives (· ∈ group) Node.Sends d p) next :=
  fun moves => ends.quiet _ (.node d p node next here moves)

theorem Ends.still (here : d p = some node) (isMember : node.member = .registered run) :
    run.Still env.toKeyEnv cfg := by
  intro action internal permits
  by_contra moves
  obtain ⟨next, stepped⟩ := Option.ne_none_iff_exists'.mp moves
  exact ends.not_moves here (.act isMember internal permits stepped)

theorem Ends.orderly (fits : Fits env cfg group leader mpcID d p srv node)
    (has : node.member.Has run) : run.Orderly := by
  obtain ⟨srv', configured, history⟩ := ends.peaceful p node fits.here
  obtain ⟨ctx, origin, runs⟩ := history.runs has
  have keeps : run.Keeps (decide (p = leader)) srv' ctx :=
    (runs.mono fun _ _ steady => steady.prompt).keeps origin.created
  refine runs.orderly origin.created ?_
  rw [← keeps.ids]
  have perm := ends.sound.ids_perm ends.small fits has
  exact List.nodup_iff_count_le_one.mp (perm.nodup_iff.mpr ends.sound.distinct) _

/-- Every context waits for a message, or has finished. -/
theorem Ends.place (fits : Fits env cfg group leader mpcID d p srv node) :
    (∃ srv, node.member = .idle srv) ∨
      ∃ run, node.member.Has run ∧ (node.member = .removed run ∧ run.pc = .returned none ∨
        node.member = .registered run ∧ ∃ i step, run.pc = .waiting i ∧
          run.ctx.mpcSteps[i]? = some step ∧ step.finish = []) := by
  have here := fits.here
  cases isMember : node.member with
  | idle srv => exact .inl ⟨srv, rfl⟩
  | created srv ctx => exact absurd (.register isMember) (ends.not_moves here)
  | registered run =>
    right
    obtain ⟨ctx, -, keeps⟩ := fits.keeps (.inl isMember)
    have few : run.ctx.peers.length ≤ 0x0FFFFFE := by
      have := ends.sound.length_peers ends.small fits (.inl isMember)
      have := ends.small
      omega
    refine ⟨run, .inl rfl, .inr ⟨rfl, ?_⟩⟩
    rcases (ends.orderly fits (.inl isMember)).standstill keeps.content keeps.kinds few
      (ends.unfailed p node run here (.inl isMember))
      (ends.still here isMember) with returned | waits
    · exact absurd (.remove isMember returned) (ends.not_moves here)
    · exact waits
  | removed run =>
    right
    refine ⟨run, .inr rfl, .inl ⟨rfl, ?_⟩⟩
    obtain ⟨result, returned⟩ := fits.history.returned isMember
    have sound := ends.unfailed p node run here (.inr isMember)
    rw [returned] at sound ⊢
    rw [not_not.mp sound]

/-- The channel of a step has room for a letter that has not been taken. -/
theorem Ends.room (fits : Fits env cfg group leader mpcID d p srv node)
    (isMember : node.member = .registered run) (posted : d.Posted p letter)
    (fresh : letter ∉ node.taken) (isMessage : letter.parcel.msgCode = .mpcMessage) {step : Step}
    (found : run.ctx.mpcSteps[letter.parcel.msg.stepID]? = some step) :
    step.msgChan.length < step.capacity := by
  have has : node.member.Has run := .inl isMember
  have roomy := (ends.orderly fits has).flows.roomy _ step found
  have capacity := roomy.capacity
  have marks := roomy.marks
  have stops := run.pc.stops_le_one letter.parcel.msg.stepID
  have quits := quitSent_le_one run.ctx.bQuit run.quitter
    (2 * letter.parcel.msg.stepID) run.pc
  have fewer := ends.sound.entered_lt ends.small fits has posted fresh isMessage
  have enough := ends.sound.messages_le fits has found
  have length := Mailbox.length_eq step.msgChan
  have peers := ends.sound.length_peers ends.small fits has
  simp only [ContextRun.dues] at marks
  simp only [Mailbox.unread, Bool.false_eq_true, if_false] at length
  omega

/-- Every letter has been taken. -/
theorem Ends.taken (fits : Fits env cfg group leader mpcID d p srv node)
    (posted : d.Posted p letter) : letter ∈ node.taken := by
  by_contra fresh
  have comes : Network.Arrives (· ∈ group) Node.Sends d p letter.sender
      (letter.number, letter.parcel) := by
    obtain ⟨sender, here, sends⟩ := posted
    refine ⟨ends.sound.member_of_here here, fun other there => ?_⟩
    cases here.symm.trans there
    exact sends
  suffices took : ∃ next, node.take env cfg letter = some next by
    obtain ⟨next, took⟩ := took
    exact ends.not_moves fits.here (.take comes fresh took)
  -- a request is answered or known, a message finds room, and no error is on its way
  unfold Node.take
  cases isCode : letter.parcel.msgCode with
  | requestMPC =>
    have isLeader := ends.sound.requester posted isCode
    have follows : p ≠ leader := isLeader ▸ (ends.sound.sender posted).2.1
    rcases ends.place fits with ⟨srv', isMember⟩ | ⟨run, has, -⟩
    · obtain rfl := fits.history.srv_of_idle isMember
      obtain ⟨ctx, answered⟩ := ends.sound.answered ends.small fits.configured posted isCode
      simp [isMember, Member.requestMPC, answered]
    · -- it has taken this request before
      obtain ⟨ctx, origin, -⟩ := fits.keeps has
      rw [decide_eq_false follows] at origin
      obtain ⟨request, taken, asks, -⟩ := origin
      have came := fits.came request taken
      have same : letter = request := by
        refine ends.sound.letter_eq ends.small posted came
          (isLeader.trans (ends.sound.requester came asks).symm) (by simp [isCode])
          (by simp [asks]) ?_
        rw [ends.sound.step_of_request posted isCode, ends.sound.step_of_request came asks]
      exact absurd (same ▸ taken) fresh
  | mpcMessage =>
    cases isFound : node.member.find letter.parcel.msg.contextID with
    | none => simp [isFound]
    | some run =>
      obtain ⟨isMember, isContext⟩ := Member.find_eq_some isFound
      obtain ⟨step, found⟩ : ∃ step, run.ctx.mpcSteps[letter.parcel.msg.stepID]? = some step := by
        obtain ⟨kind, isKind, -⟩ := ends.sound.kind_of_posted posted (by simp [isCode])
        have inside := (List.getElem?_eq_some_iff.mp isKind).1
        rw [length_gpkKinds, ← Sound.length_steps fits (.inl isMember)] at inside
        exact ⟨_, List.getElem?_eq_getElem inside⟩
      have alive : run.pc ≠ .panicked := by
        intro isPc
        have sound := ends.unfailed p node run fits.here (.inl isMember)
        rw [isPc] at sound
        exact sound trivial
      have room := ends.room fits isMember posted fresh isCode found
      simp [isFound, ContextRun.step, alive, ContextRun.getMessage, isContext, MpcContext.onStep,
        found, Step.sendMessage, room]
  | mpcError => exact absurd isCode (ends.sound.code_ne_mpcError ends.unfailed posted)

theorem Ends.pending (fits : Fits env cfg group leader mpcID d p srv node)
    (has : node.member.Has run) : run.pc.pending = [] := by
  rcases ends.place fits with ⟨srv', isMember⟩ |
    ⟨other, -, ⟨isMember, isPc⟩ | ⟨isMember, i, step, isPc, -⟩⟩
  · rcases has with isRun | isRun <;> cases isMember.symm.trans isRun
  · rcases has with isRun | isRun <;> cases isMember.symm.trans isRun
    rw [isPc]
    rfl
  · rcases has with isRun | isRun <;> cases isMember.symm.trans isRun
    rw [isPc]
    rfl

/-- Whoever has initialized a step has written to everybody. -/
theorem Ends.writes (fits : Fits env cfg group leader mpcID d p srv node)
    (has : node.member.Has run) {kind : StepKind}
    (isKind : (gpkKinds (decide (p = leader)))[k]? = some kind) (speaks : kind ≠ .getReady)
    (inited : run.pc.Inited k) (member : q ∈ group) :
    ∃ parcel ∈ run.sent, parcel.receiver = q ∧ parcel.msgCode = kind.code ∧
      parcel.msg.stepID = k := by
  obtain ⟨ctx, -, keeps⟩ := fits.keeps has
  have each := (keeps.mailing k).each kind isKind speaks inited
    (ends.unfailed p node run fits.here has)
  have listed : q ∈ (mailOf k run.posted).map Parcel.receiver := by
    rw [each]
    exact (ends.sound.ids_perm ends.small fits has).mem_iff.mpr member
  obtain ⟨parcel, isMail, rfl⟩ := List.mem_map.mp listed
  obtain ⟨posted, noError, isStep⟩ := mem_mailOf.mp isMail
  obtain ⟨-, kind', isKind', isCode, -⟩ := keeps.content.legible parcel posted noError
  rw [isStep, isKind] at isKind'
  cases isKind'
  rw [ContextRun.posted, ends.pending fits has, List.append_nil] at posted
  exact ⟨parcel, posted, rfl, isCode, isStep⟩

end

theorem posted_of_sent (fits : Fits env cfg group leader mpcID d p srv node)
    (has : node.member.Has run) (sent : parcel ∈ run.sent) (other : parcel.receiver ≠ p) :
    ∃ number, d.Posted parcel.receiver ⟨p, number, parcel⟩ := by
  obtain ⟨number, found⟩ := List.getElem?_of_mem sent
  refine ⟨number, node, fits.here, ?_, rfl, ?_⟩
  · rw [Member.sent_of_has has]
    exact found
  · rw [fits.self]
    exact other

theorem first_of_leader :
    (gpkKinds (decide (leader = leader)))[0]? = some (.request .mpcGPKLeader) := by
  simp [gpkKinds]

section

variable (ends : Ends env cfg group leader mpcID d)
  (fits : Fits env cfg group leader mpcID d p srv node)

include ends fits

/-- Everybody has a context, which waits or has finished. -/
theorem Ends.has :
    ∃ run, node.member.Has run ∧ (node.member = .removed run ∧ run.pc = .returned none ∨
      node.member = .registered run ∧ ∃ i step, run.pc = .waiting i ∧
        run.ctx.mpcSteps[i]? = some step ∧ step.finish = []) := by
  rcases ends.place fits with ⟨srv', isMember⟩ | placed
  · exfalso
    obtain rfl := fits.history.srv_of_idle isMember
    -- the leader has asked this node
    obtain ⟨srvL, nodeL, fitsL⟩ := ends.sound.inside leader ends.sound.member
    have follows : p ≠ leader := by
      rintro rfl
      have history := fits.history
      obtain ⟨member, taken, heard⟩ := node
      cases isMember
      cases history with
      | idle isFollower => simp at isFollower
    obtain ⟨runL, hasL, inited⟩ : ∃ runL, nodeL.member.Has runL ∧ runL.pc.Inited 0 := by
      rcases ends.place fitsL with ⟨srv', isIdle⟩ | ⟨runL, hasL, ⟨-, isPc⟩ | ⟨-, i, step, isPc, -⟩⟩
      · have history := fitsL.history
        obtain ⟨member, taken, heard⟩ := nodeL
        cases isIdle
        cases history with
        | idle isFollower => simp at isFollower
      · exact ⟨runL, hasL, by rw [isPc]; trivial⟩
      · exact ⟨runL, hasL, by rw [isPc]; exact Nat.zero_le i⟩
    obtain ⟨parcel, sent, isReceiver, asks, -⟩ := ends.writes fitsL hasL first_of_leader (by simp)
      inited (ends.sound.member_of_here fits.here)
    obtain ⟨number, posted⟩ := posted_of_sent fitsL hasL sent (isReceiver ▸ follows)
    rw [isReceiver] at posted
    exact ends.attentive.answered p node _ fits.here (ends.taken fits posted) asks _ isMember
  · exact placed

/-- What a node has written to another one that still waits, that one has heard. -/
theorem Ends.enters (isMember : node.member = .registered run) {srvQ : MpcDistributor}
    {nodeQ : Node} {runQ : ContextRun} (fitsQ : Fits env cfg group leader mpcID d q srvQ nodeQ)
    (hasQ : nodeQ.member.Has runQ) {kind : StepKind}
    (isKind : (gpkKinds (decide (q = leader)))[k]? = some kind) (speaks : kind ≠ .getReady)
    (isMessage : kind.code = .mpcMessage) (inited : runQ.pc.Inited k)
    (counts : 1 ≤ k ∨ p = leader) :
    q ∈ (run.entered (node.heard.map Letter.entry) k).map StepMessage.peerID := by
  obtain ⟨parcel, sent, isReceiver, isCode, isStep⟩ := ends.writes fitsQ hasQ isKind speaks inited
    (ends.sound.member_of_here fits.here)
  rw [peerID_entered]
  by_cases own : p = q
  · -- its own message
    subst own
    cases fits.here.symm.trans fitsQ.here
    have same : runQ = run := by
      rcases hasQ with isRun | isRun <;> cases isMember.symm.trans isRun
      rfl
    subst same
    refine List.mem_append_right _
      (List.mem_map.mpr ⟨(parcel.receiver, parcel.msg), ?_, fits.run_self hasQ⟩)
    refine List.mem_filter.mpr
      ⟨mem_mails_iff.mpr ⟨parcel, sent, isCode.trans isMessage, rfl⟩, ?_⟩
    simp [isReceiver, isStep, fits.run_self hasQ]
  -- what has been taken has been heard, as the context is still there
  · obtain ⟨number, posted⟩ := posted_of_sent fitsQ hasQ sent (isReceiver ▸ own)
    rw [isReceiver] at posted
    refine List.mem_append_left _ (List.mem_map.mpr ⟨⟨q, number, parcel⟩, ?_, rfl⟩)
    refine List.mem_filter.mpr ⟨?_, decide_eq_true isStep⟩
    rcases ends.attentive.heard p node _ fits.here (ends.taken fits posted)
      (isCode.trans isMessage) (isStep.symm ▸ counts) with heard | ⟨other, isRemoved⟩
    · exact heard
    · cases isMember.symm.trans isRemoved

theorem Ends.inited_zero (has : node.member.Has run) : run.pc.Inited 0 := by
  obtain ⟨other, -, ⟨isMember, isPc⟩ | ⟨isMember, i, step, isPc, -⟩⟩ := ends.has fits
  · rcases has with isRun | isRun <;> cases isMember.symm.trans isRun
    rw [isPc]
    trivial
  · rcases has with isRun | isRun <;> cases isMember.symm.trans isRun
    rw [isPc]
    exact Nat.zero_le i

theorem Ends.seeded (has : node.member.Has run) : SeedsDrawn run.ctx.peers := by
  by_cases leads : p = leader
  · subst leads
    obtain ⟨parcel, sent, -, asks, -⟩ := ends.writes fits has first_of_leader (by simp)
      (ends.inited_zero fits has) ends.sound.member
    obtain ⟨ctx, -, keeps⟩ := fits.keeps has
    exact (keeps.content.requests parcel (List.mem_append_left _ sent) asks).2.1
  · obtain ⟨-, -, -, -, -, -, seeded⟩ := ends.sound.peers ends.small leads fits has
    exact seeded

end

/-- From the third step on, leader and followers have the same steps; before it they look at nothing
that a message says. -/
theorem legible_of_kinds {leads other : Bool} {kind kind' : StepKind} {msg : StepMessage}
    (isKind : (gpkKinds leads)[k]? = some kind) (isKind' : (gpkKinds other)[k]? = some kind')
    (enough : kind'.reads ≤ msg.data.length) (proper : kind'.Proper msg) :
    kind.reads ≤ msg.data.length ∧ kind.Proper msg := by
  have same : kind = kind' ∨ kind.reads = 0 ∧ kind.Proper msg := by
    cases leads <;> cases other
    all_goals
      rcases k with _ | _ | _ | _ | _ | k
    all_goals
      cases isKind
      try cases isKind'
    all_goals simp [StepKind.reads, StepKind.Proper]
  rcases same with rfl | ⟨nothing, isProper⟩
  · exact ⟨enough, proper⟩
  · exact ⟨nothing ▸ Nat.zero_le _, isProper⟩

section

variable (ends : Ends env cfg group leader mpcID d)
  (fits : Fits env cfg group leader mpcID d p srv node)

include ends fits

/-- The messages of a step are fair. -/
theorem Ends.fair (has : node.member.Has run) {kind : StepKind}
    (isKind : (gpkKinds (decide (p = leader)))[k]? = some kind) :
    Fair run.ctx.peers kind (run.entered (node.heard.map Letter.entry) k) := by
  have came (letter : Letter) (heard : letter ∈ node.heard) :
      d.Posted p letter ∧ letter.parcel.msgCode = .mpcMessage :=
    ⟨fits.came letter (fits.heard.subset heard), fits.messages letter heard⟩
  obtain ⟨once, known⟩ := ends.sound.entered_once ends.small fits has (fits.heard.nodup fits.once)
    came k
  have seeded := ends.seeded fits has
  refine ⟨once, fun msg member => ?_, fun msg member => ?_, fun _ => ⟨seeded.distinct, ?_⟩⟩
  · exact (ends.sound.ids_perm ends.small fits has).mem_iff.mpr
      (known (List.mem_map_of_mem member))
  -- a message of another node, or its own
  · rcases ContextRun.mem_entered member with ⟨entry, isEntry, isStep, rfl⟩ |
      ⟨parcel, sent, isMessage, -, isStep, rfl⟩
    · obtain ⟨letter, heard, rfl⟩ := List.mem_map.mp isEntry
      obtain ⟨posted, isMessage⟩ := came letter heard
      obtain ⟨-, -, -, srv', node', run', fits', has', found⟩ := ends.sound.sender posted
      obtain ⟨ctx', -, keeps'⟩ := fits'.keeps has'
      obtain ⟨-, kind', isKind', -, enough, proper⟩ := keeps'.content.legible letter.parcel
        (List.mem_append_left _ (List.mem_of_getElem? found)) (by simp [isMessage])
      have here : letter.parcel.msg.stepID = k := isStep
      rw [here] at isKind'
      exact legible_of_kinds isKind isKind' enough (proper _)
    · obtain ⟨ctx, -, keeps⟩ := fits.keeps has
      obtain ⟨-, kind', isKind', -, enough, proper⟩ := keeps.content.legible parcel
        (List.mem_append_left _ sent) (by simp [isMessage])
      rw [isStep] at isKind'
      exact legible_of_kinds isKind isKind' enough (proper _)
  · intro peer member
    have := (seeded.range peer member).1
    omega

/-- Whom a step still waits for has not been heard. -/
theorem Ends.entered_lt_waits (isMember : node.member = .registered run) {step : Step}
    (isPc : run.pc = .waiting i) (found : run.ctx.mpcSteps[i]? = some step)
    (untold : step.finish = []) :
    ∃ W, (gpkWaits (decide (p = leader)) group.length)[i]? = some W ∧
      ((run.entered (node.heard.map Letter.entry) i).length : Int) < W := by
  have has : node.member.Has run := .inl isMember
  have orderly := ends.orderly fits has
  have unfailed := ends.unfailed p node run fits.here has
  have inside : i < 5 := Sound.length_steps fits has ▸ (List.getElem?_eq_some_iff.mp found).1
  have alert := orderly.alert i step found (by rw [isPc]; exact le_rfl)
  rw [isPc] at alert
  have waits : 0 < step.waiting := by
    by_contra down
    exact alert.told rfl (not_lt.mp down) untold
  -- a reader with something to read would move
  have empty := orderly.msgChan_eq_nil unfailed (ends.still fits.here isMember) found
    (alert.reads rfl waits)
  obtain ⟨step', msgs, W, isWait, account, isKind, complete⟩ :=
    ends.sound.account fits has inside
  cases account.found.symm.trans found
  refine ⟨W, ?_, ?_⟩
  · rw [← ends.sound.length_peers ends.small fits has]
    exact isWait
  · have all := complete (ends.fair fits has isKind) waits
    rw [empty] at all
    have count := account.waiting
    simp only [List.reduceOption_nil, List.length_nil] at all
    omega

end

theorem exists_speaking (shared : 2 ≤ i) (inside : i < 5) :
    ∃ kind : StepKind, kind ≠ .getReady ∧ kind.code = .mpcMessage ∧
      ∀ leads n, (gpkKinds leads)[i]? = some kind ∧ (gpkWaits leads n)[i]? = some (n : Int) := by
  rcases i with _ | _ | _ | _ | _ | i
  · omega
  · omega
  · exact ⟨.skShare, by simp, rfl, fun leads n => by cases leads <;> exact ⟨rfl, rfl⟩⟩
  · exact ⟨.gpk [.mpcPublicShare] [.publicKeyResult], by simp, rfl,
      fun leads n => by cases leads <;> exact ⟨rfl, rfl⟩⟩
  · exact ⟨.ackGPK, by simp, rfl, fun leads n => by cases leads <;> exact ⟨rfl, rfl⟩⟩
  · omega

section

variable (ends : Ends env cfg group leader mpcID d)

include ends

/-- Nobody waits at a step that all have come to. -/
theorem Ends.not_waiting
    (all : ∀ q srvQ nodeQ runQ, Fits env cfg group leader mpcID d q srvQ nodeQ →
      nodeQ.member.Has runQ → runQ.pc.Inited i)
    (fits : Fits env cfg group leader mpcID d p srv node) (isMember : node.member = .registered run)
    {step : Step} (isPc : run.pc = .waiting i) (found : run.ctx.mpcSteps[i]? = some step)
    (untold : step.finish = []) : False := by
  have inside : i < 5 :=
    Sound.length_steps fits (.inl isMember) ▸ (List.getElem?_eq_some_iff.mp found).1
  obtain ⟨W, isWait, fewer⟩ := ends.entered_lt_waits fits isMember isPc found untold
  rw [← List.length_map StepMessage.peerID] at fewer
  -- those who speak in this step have been heard
  have heard {q : NodeID} (kind : StepKind) (member : q ∈ group)
      (isKind : (gpkKinds (decide (q = leader)))[i]? = some kind) (speaks : kind ≠ .getReady)
      (isMessage : kind.code = .mpcMessage) (counts : 1 ≤ i ∨ p = leader) :
      q ∈ (run.entered (node.heard.map Letter.entry) i).map StepMessage.peerID := by
    obtain ⟨srvQ, nodeQ, fitsQ⟩ := ends.sound.inside q member
    obtain ⟨runQ, hasQ, -⟩ := ends.has fitsQ
    exact ends.enters fits isMember fitsQ hasQ isKind speaks isMessage (all q _ _ _ fitsQ hasQ)
      counts
  have distinct := ends.sound.distinct
  by_cases shared : 2 ≤ i
  · obtain ⟨kind, speaks, isMessage, same⟩ := exists_speaking shared inside
    have everyone := (distinct.subperm fun q member =>
      heard _ member (same _ 0).1 speaks isMessage (.inl (by omega))).length_le
    rw [(same _ _).2] at isWait
    cases isWait
    omega
  -- in the first two steps the leader and the followers wait for each other
  · by_cases leads : p = leader
    · rw [decide_eq_true leads] at isWait
      rcases i with _ | _ | i
      · -- the leader waits for everybody else
        have others := ((distinct.erase leader).subperm fun q member => by
          obtain ⟨other, inGroup⟩ := distinct.mem_erase_iff.mp member
          exact heard (.ackMpc .mpcGPKPeer) inGroup (by simp [other, gpkKinds]) (by simp) rfl
            (.inr leads)).length_le
        rw [List.length_erase_of_mem ends.sound.member] at others
        cases isWait
        omega
      · cases isWait
        omega
      · omega
    · rw [decide_eq_false leads] at isWait
      rcases i with _ | _ | i
      · cases isWait
        omega
      · -- a follower waits for the leader
        have isReady := heard .ready ends.sound.member (by simp [gpkKinds]) (by simp) rfl
          (.inl le_rfl)
        have positive := List.length_pos_of_mem isReady
        cases isWait
        omega
      · omega

/-- When nothing more can happen and nobody has failed, everybody has finished. -/
theorem Ends.finished (fits : Fits env cfg group leader mpcID d p srv node) :
    ∃ run, node.member = .removed run ∧ run.pc = .returned none := by
  -- step by step, everybody has come to it
  have reached (i : Nat) : ∀ q srvQ nodeQ runQ, Fits env cfg group leader mpcID d q srvQ nodeQ →
      nodeQ.member.Has runQ → runQ.pc.Inited i := by
    induction i with
    | zero => exact fun q srvQ nodeQ runQ fitsQ hasQ => ends.inited_zero fitsQ hasQ
    | succ i ih =>
      intro q srvQ nodeQ runQ fitsQ hasQ
      have before := ih q srvQ nodeQ runQ fitsQ hasQ
      obtain ⟨other, -, ⟨isMember, isPc⟩ | ⟨isMember, j, step, isPc, found, untold⟩⟩ :=
        ends.has fitsQ
      · rcases hasQ with isRun | isRun <;> cases isMember.symm.trans isRun
        rw [isPc]
        trivial
      · rcases hasQ with isRun | isRun <;> cases isMember.symm.trans isRun
        rw [isPc] at before ⊢
        rcases Nat.lt_or_eq_of_le before with further | rfl
        · exact further
        · exact absurd (ends.not_waiting ih fitsQ isMember isPc found untold) id
  obtain ⟨run, has, ⟨isMember, isPc⟩ | ⟨isMember, i, step, isPc, found, untold⟩⟩ := ends.has fits
  · exact ⟨run, isMember, isPc⟩
  · exact (ends.not_waiting (reached i) fits isMember isPc found untold).elim

/-- Who has finished has counted a message of everybody in each step that all nodes share. -/
theorem Ends.counted (fits : Fits env cfg group leader mpcID d p srv node)
    (has : node.member.Has run) (returned : run.pc = .returned none) (shared : 2 ≤ k)
    (inside : k < 5) :
    ∃ step msgs, run.ctx.mpcSteps[k]? = some step ∧ step.body.Collected run.ctx.peers msgs ∧
      (msgs.map StepMessage.peerID).Perm group ∧
      msgs ⊆ run.entered (node.heard.map Letter.entry) k := by
  obtain ⟨step, msgs, W, isWait, account, -, -⟩ := ends.sound.account fits has inside
  obtain ⟨ctx, -, keeps⟩ := fits.keeps has
  obtain ⟨once, known⟩ := ends.sound.entered_once ends.small fits has (fits.heard.nodup fits.once)
    (fun letter heard => ⟨fits.came letter (fits.heard.subset heard), fits.messages letter heard⟩) k
  obtain ⟨list, perm, fewer⟩ := (List.sublist_append_left _ _).subperm.trans account.entered
  have distinct : (msgs.map StepMessage.peerID).Nodup :=
    (perm.map _).nodup_iff.mp ((fewer.map _).nodup once)
  have members : msgs.map StepMessage.peerID ⊆ group := fun q member =>
    known ((fewer.map _).subset ((perm.map _).mem_iff.mpr member))
  have enough : group.length ≤ (msgs.map StepMessage.peerID).length := by
    obtain ⟨kind, -, -, same⟩ := exists_speaking shared inside
    rw [(same _ _).2, ends.sound.length_peers ends.small fits has] at isWait
    cases isWait
    have down := keeps.down (by rw [returned]; rfl) step (List.mem_of_getElem? account.found)
    have waiting := account.waiting
    rw [List.length_map]
    omega
  exact ⟨step, msgs, account.found, account.gathered.collected,
    (distinct.subperm members).perm_of_length_le enough,
    fun msg member => fewer.subset (perm.mem_iff.mpr member)⟩

end

theorem quiet_of_removed (present : ∀ p ∈ group, ∃ node, d p = some node)
    (removed : ∀ p node, d p = some node → ∃ run, node.member = .removed run)
    (arrived : ∀ p node letter, d p = some node → d.Posted p letter → letter ∈ node.taken) :
    d.Quiet env cfg group := by
  intro d' moves
  obtain ⟨p, node, next, here, taken⟩ := moves
  obtain ⟨run, isRemoved⟩ := removed p node here
  cases taken with
  | register isMember => cases isRemoved.symm.trans isMember
  | act isMember => cases isRemoved.symm.trans isMember
  | remove isMember => cases isRemoved.symm.trans isMember
  | @take letter _ comes once =>
    obtain ⟨sender, there⟩ := present letter.sender comes.1
    exact once (arrived p node letter here ⟨sender, there, comes.2 sender there⟩)

end Deployment

/-- Let the nodes of a group generate a key over a network that delivers what is sent, in any order
and at any time. When nothing more can happen and no node has met an error, every node has finished
its context, and in each of the last three steps it has counted one message of each member. -/
theorem key_generation_completes (env : NodeEnv) (cfg : Config) (group : List NodeID)
    (leader : NodeID) (mpcID : Nat) (d d' : Deployment) (small : group.length ≤ 256)
    (starts : Deployment.Starts cfg group leader mpcID d)
    (reaches : Deployment.Reaches env cfg group d d') (quiet : Deployment.Quiet env cfg group d')
    (unfailed : Deployment.Unfailed d') (p : NodeID) (member : p ∈ group) :
    ∃ node run, d' p = some node ∧ node.member = .removed run ∧ run.pc = .returned none ∧
      ∀ k, 2 ≤ k → k < 5 → ∃ step msgs, run.ctx.mpcSteps[k]? = some step ∧
        step.body.Collected run.ctx.peers msgs ∧ (msgs.map StepMessage.peerID).Perm group := by
  have ends : Deployment.Ends env cfg group leader mpcID d' :=
    .of_reaches small starts reaches quiet unfailed
  obtain ⟨srv, node, fits⟩ := ends.sound.inside p member
  obtain ⟨run, isMember, returned⟩ := ends.finished fits
  refine ⟨node, run, fits.here, isMember, returned, fun k shared inside => ?_⟩
  obtain ⟨step, msgs, found, collected, everyone, -⟩ :=
    ends.counted fits (.inr isMember) returned shared inside
  exact ⟨step, msgs, found, collected, everyone⟩

/-! ### Two nodes -/

namespace PairSample

open Deployment (Turn)

/-- The points that the shares of the two nodes are sent with, in the order of their seeds. -/
def shared (choice : Choice) : List Action :=
  ({ choice with orders := ⟨[[(5, 1), (6, 0)]], []⟩ } : Choice).moves 1

def shown (choice : Choice) : List Action :=
  let gpk := KeyFileSample.gpk
  ({ choice with orders := ⟨[], [[(5, gpk), (6, gpk)]]⟩ } : Choice).moves 1

def generation : List (NodeID × Turn) :=
  reads 2 1 3 1 ++ acts 2 (peerChoice.moves 7)
    ++ acts 1 [.messageLoop 2] ++ reads 1 2 2 2
    ++ acts 1 (traceChoice.moves 2 ++ shared traceChoice ++ traceChoice.moves 4)
    ++ reads 2 1 5 2
    ++ acts 2 ([.messageLoop 2] ++ peerChoice.moves 2 ++ shared peerChoice ++ peerChoice.moves 4)
    ++ acts 1 [.messageLoop 3] ++ reads 1 2 4 3
    ++ acts 1 (traceChoice.moves 2 ++ shown traceChoice ++ traceChoice.moves 4)
    ++ reads 2 1 7 3
    ++ acts 2 ([.messageLoop 3] ++ peerChoice.moves 2 ++ shown peerChoice ++ peerChoice.moves 4)
    ++ acts 1 [.messageLoop 4] ++ reads 1 2 6 4 ++ acts 1 (traceChoice.moves 16) ++ [(1, .remove)]
    ++ reads 2 1 9 4 ++ acts 2 ([.messageLoop 4] ++ peerChoice.moves 16) ++ [(2, .remove)]

/-- The node has removed its context without an error, and has got everything from the other. -/
def done (other node : Node) : Bool :=
  match node.member with
  | .removed run => run.pc = .returned none ∧
      (other.member.sent.zipIdx.all fun entry => entry.1.receiver = other.member.srv.self ∨
        ⟨other.member.srv.self, entry.2, entry.1⟩ ∈ node.taken)
  | _ => false

def bothDone (nodes : Assoc NodeID Node) : Bool :=
  match nodes.lookup 1, nodes.lookup 2 with
  | some one, some two =>
    one.member.srv.self = 1 ∧ two.member.srv.self = 2 ∧ done two one ∧ done one two
  | _, _ => false

private theorem generation_done :
    (run env (handshake ++ generation)).map bothDone = some true := by
  decide +kernel

theorem removed_of_done (isDone : done other node = true) :
    ∃ run, node.member = .removed run ∧ run.pc = .returned none := by
  unfold done at isDone
  split at isDone
  next run isMember => exact ⟨run, isMember, (of_decide_eq_true isDone).1⟩
  next => cases isDone

theorem taken_of_done (isDone : done other node = true) {receiver : NodeID} {number : Nat}
    (sends : other.Sends receiver (number, parcel)) :
    ⟨other.member.srv.self, number, parcel⟩ ∈ node.taken := by
  unfold done at isDone
  split at isDone
  next =>
    have all := (of_decide_eq_true isDone).2
    have entry := List.all_eq_true.mp all (parcel, number)
      (List.mk_mem_zipIdx_iff_getElem?.mpr sends.1)
    refine (of_decide_eq_true entry).resolve_left fun own => sends.2.2 ?_
    exact sends.2.1.symm.trans own
  next => cases isDone

/-- A state in which both are done is at rest. -/
theorem rests_of_done {packages : NodeEnv} {nodes : Assoc NodeID Node}
    (sound : Deployment.Sound packages ⟨1, 2⟩ [1, 2] 1 7 (Deployment.ofList nodes))
    (isDone : bothDone nodes = true) :
    Deployment.Quiet packages ⟨1, 2⟩ [1, 2] (Deployment.ofList nodes) ∧
      Deployment.Unfailed (Deployment.ofList nodes) := by
  unfold bothDone at isDone
  split at isDone
  next one two hereOne hereTwo =>
    obtain ⟨selfOne, selfTwo, doneOne, doneTwo⟩ := of_decide_eq_true isDone
    have cases (p : NodeID) (node : Node) (here : Deployment.ofList nodes p = some node) :
        p = 1 ∧ node = one ∨ p = 2 ∧ node = two := by
      rcases List.mem_cons.mp (sound.member_of_here here) with rfl | second
      · exact .inl ⟨rfl, Option.some.inj (here.symm.trans hereOne)⟩
      · obtain rfl := List.mem_singleton.mp second
        exact .inr ⟨rfl, Option.some.inj (here.symm.trans hereTwo)⟩
    have removed (p : NodeID) (node : Node) (here : Deployment.ofList nodes p = some node) :
        ∃ run, node.member = .removed run ∧ run.pc = .returned none := by
      rcases cases p node here with ⟨-, rfl⟩ | ⟨-, rfl⟩
      · exact removed_of_done doneOne
      · exact removed_of_done doneTwo
    constructor
    · refine Deployment.quiet_of_removed (fun p member => ?_) (fun p node here => ?_)
        fun p node letter here posted => ?_
      · obtain ⟨srv, node, fits⟩ := sound.inside p member
        exact ⟨node, fits.here⟩
      · obtain ⟨run, isMember, -⟩ := removed p node here
        exact ⟨run, isMember⟩
      · obtain ⟨sender, there, sends⟩ := posted
        obtain ⟨q, number, parcel⟩ := letter
        rcases cases q sender there with ⟨rfl, rfl⟩ | ⟨rfl, rfl⟩ <;>
          rcases cases p node here with ⟨rfl, rfl⟩ | ⟨rfl, rfl⟩
        · exact absurd selfOne.symm sends.2.2
        · exact selfOne ▸ taken_of_done doneTwo sends
        · exact selfTwo ▸ taken_of_done doneOne sends
        · exact absurd selfTwo.symm sends.2.2
    · intro p node run here has failed
      obtain ⟨other, isMember, returned⟩ := removed p node here
      rcases has with isRun | isRun <;> cases isMember.symm.trans isRun
      rw [returned] at failed
      exact failed rfl
  next => cases isDone

end PairSample

theorem key_generation_completes_pair :
    ∃ d d', Deployment.Starts ⟨1, 2⟩ [1, 2] 1 7 d ∧
      Deployment.Reaches PairSample.env ⟨1, 2⟩ [1, 2] d d' ∧
      Deployment.Quiet PairSample.env ⟨1, 2⟩ [1, 2] d' ∧ Deployment.Unfailed d' ∧
      ∀ p ∈ [1, 2], ∃ node run, d' p = some node ∧ node.member = .removed run ∧
        run.pc = .returned none := by
  obtain ⟨nodes, ran, isDone⟩ := Option.map_eq_some_iff.mp PairSample.generation_done
  obtain ⟨leader, created, reaches⟩ := PairSample.reaches_of_run ran
  have starts := PairSample.starts created
  obtain ⟨quiet, unfailed⟩ :=
    PairSample.rests_of_done (Deployment.Reaches.sound starts reaches) isDone
  refine ⟨_, _, starts, reaches, quiet, unfailed, fun p member => ?_⟩
  obtain ⟨node, run, here, isMember, returned, -⟩ := key_generation_completes PairSample.env
    ⟨1, 2⟩ [1, 2] 1 7 _ _ (by decide) starts reaches quiet unfailed p member
  exact ⟨node, run, here, isMember, returned⟩

end SchnorrMpc
