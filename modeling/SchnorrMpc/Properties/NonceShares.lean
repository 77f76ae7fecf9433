import SchnorrMpc.Mpc.Dealing
import SchnorrMpc.Mpc.Schedule
import SchnorrMpc.Properties.SignGate

/-!
# Nonce shares on one polynomial

A node adds up the nonce shares that it has when it goes on. If it goes on with
the shares of all peers, its sum is the value of the sum of all polynomials at
its seed. If the time is over earlier, it is the value of some other sum.
-/
namespace SchnorrMpc

open Lib S256 Polynomial

variable {q : NodeID} {run u v : ContextRun} {poly : RandomPolynomialValue}
  {Meets : ContextRun → Action → Prop} {order : Assoc Nat Int}

namespace Group

/-- The members are about to run one signing, each with the peers of the request. The other peers
are silent. -/
structure Signs (cfg : Config) (members : List NodeID) (peers : List PeerInfo) (mpcID : Nat)
    (g : Group) : Prop where
  covers : ∀ q ∈ members, q ∈ peers.map PeerInfo.peerID
  silent : ∀ q, q ∉ members → g q = none
  starts : ∀ q ∈ members, ∃ srv, ∃ leader : Bool, ∃ preSetValue ctx,
    g q = some (.start srv ctx) ∧ srv.self = q ∧
    createContext cfg (if leader then .mpcSignLeader else .mpcSignPeer) mpcID peers preSetValue =
      .ok ctx

/-- The polynomial that a node has drawn for step `k`. -/
noncomputable def dealt (g : Group) (k : Nat) (q : NodeID) : (ZMod N)[X] :=
  match g q with
  | some run =>
    match run.view.bodies[k]? with
    | some (.rskShare poly) => poly.dealt
    | _ => 0
  | none => 0

theorem dealt_eq {g : Group} {k : Nat} (here : g q = some run)
    (isBody : run.view.bodies[k]? = some (.rskShare poly)) : g.dealt k q = poly.dealt := by
  simp only [dealt, here, isBody]

variable {kenv : KeyEnv} {cfg : Config} {members : List NodeID} {peers : List PeerInfo}
  {mpcID : Nat} {g g' h : Group} {p : NodeID}

section

variable (signs : g.Signs cfg members peers mpcID)
  (reaches : ReachesIf Meets kenv cfg members g g')

include signs reaches

/-- The run of one node. -/
theorem Signs.node (here : g' p = some run) :
    p ∈ members ∧ ∃ srv, ∃ leader : Bool, ∃ preSetValue poly,
      srv.self = p ∧ createSkPolyValue cfg.mpcDegree peers.length = .ok poly ∧
      Relation.ReflTransGen (ContextRun.Within Meets kenv cfg (g'.Arrives members p))
        (.start srv { createMpcContext mpcID peers preSetValue with
          mpcSteps := signSteps cfg leader peers poly }) run := by
  obtain ⟨start, was, path⟩ := reaches.origin here
  have member : p ∈ members := by
    by_contra other
    cases (signs.silent p other).symm.trans was
  obtain ⟨srv, leader, preSetValue, ctx, isStart, isSelf, created⟩ := signs.starts p member
  cases was.symm.trans isStart
  obtain ⟨poly, isPoly, rfl⟩ := createContext_signSteps leader created
  exact ⟨member, srv, leader, preSetValue, poly, isSelf, isPoly, path⟩

/-- Every member deals shares of its own polynomial. -/
theorem Signs.deals (here : g' p = some run) :
    run.view.Deals .rskShare 2 (cfg.mpcDegree + 1).toNat ∧ run.ctx.peers = peers := by
  obtain ⟨-, srv, leader, preSetValue, poly, -, isPoly, path⟩ := signs.node reaches here
  obtain ⟨-, isNew⟩ := createSkPolyValue_eq_ok isPoly
  constructor
  · have views := (ContextRun.views_of_within path
      (inbox_of_empty fun step member => (signSteps_quiet step member).1)).2
    refine View.Reaches.deals views (.inr rfl) (fun u u' within moves => ?_) ?_ ⟨poly, ?_, ?_, ?_⟩
    · refine .inl (moves.peers_of_drawn ?_)
      rw [View.Reaches.kinds within]
      intro listed
      obtain ⟨body, member, isKind⟩ := List.mem_map.mp listed
      obtain ⟨step, isStep, rfl⟩ := List.mem_map.mp member
      exact signSteps_drawn step isStep isKind
    · intro mail member
      cases member
    · cases leader <;> rfl
    · rw [isNew, List.length_replicate]
    · intro mail member
      cases member
  · exact (ContextRun.peers_of_within path (ContextRun.drawn_of_kinds signSteps_drawn)).1

theorem Signs.present (member : q ∈ members) : ∃ run, g' q = some run := by
  obtain ⟨srv, -, -, ctx, isStart, -⟩ := signs.starts q member
  have network : Network.Reaches (ContextRun.Within Meets kenv cfg) _ _ g g' := reaches
  obtain ⟨run, there, -⟩ :=
    network.project (fun _ _ _ within => within.moves.sends) (fun more => .mono more) isStart
  exact ⟨run, there⟩

theorem Signs.degree_dealt (q : NodeID) :
    (g'.dealt 2 q).degree < ((cfg.mpcDegree + 1).toNat : WithBot ℕ) := by
  cases there : g' q with
  | none =>
    simp only [dealt, there, degree_zero]
    exact WithBot.bot_lt_coe _
  | some run =>
    obtain ⟨poly, isBody, isSize, -⟩ := (signs.deals reaches there).1
    rw [dealt_eq there isBody, ← isSize]
    exact degree_polyOf_lt _ _

end

/-- A node that goes on without a time-out has one share of every peer. -/
theorem Signs.gathers (signs : g.Signs cfg members peers mpcID)
    (before : ReachesIf (ContextRun.Punctual 2) kenv cfg members g h) (here : h p = some u)
    (isPc : u.pc = .finishStep 2) :
    ∃ step poly, ∃ msgs : List StepMessage, u.ctx.mpcSteps[2]? = some step ∧
      step.body = .rskShare poly ∧
      poly.message = (msgs.map fun m => (getPeerSeed peers m.peerID, m.data.getD 0 0)) ∧
      (msgs.map StepMessage.peerID).Nodup ∧
      (msgs.map StepMessage.peerID).Perm (peers.map PeerInfo.peerID) ∧
      ∀ m ∈ msgs, ∃ other msg, h m.peerID = some other ∧ other.Sends p msg ∧ msg.stepID = 2 ∧
        m.data = msg.data := by
  obtain ⟨member, srv, leader, preSetValue, poly, isSelf, isPoly, path⟩ := signs.node before here
  have samePeers := (signs.deals before here).2
  have found : (signSteps cfg leader peers poly)[2]? =
      some (signStep peers 2 (.rskShare poly) peers.length) := by
    cases leader <;> rfl
  have empty : poly.message = [] := by rw [(createSkPolyValue_eq_ok isPoly).2]
  have inbox heard : Inbox heard (signSteps cfg leader peers poly) :=
    inbox_of_empty fun step member => (signSteps_quiet step member).1
  obtain ⟨step, msgs, isStep, isKind, tally⟩ := ContextRun.counted_of_within path
    (ContextRun.drawn_of_kinds signSteps_drawn) (inbox _)
    (ContextRun.counted_of_fresh found ⟨empty, List.nodup_nil⟩)
  have gate := ContextRun.gate_of_within 2 path (fun _ _ punctual => punctual)
    fun step member => (signSteps_quiet step member).2
  obtain ⟨poly', isBody⟩ := StepBody.eq_rskShare isKind
  have collected := tally.gathered.collected
  have apart := tally.gathered.apart
  rw [isBody, samePeers] at collected apart
  -- the counter is down, so there are as many messages as peers
  have enough : peers.length ≤ msgs.length := by
    have down := gate.passed (.inl (by rw [isPc]; exact le_rfl)) step isStep
    have waiting : step.waiting = (peers.length : Int) - msgs.length := tally.waiting
    omega
  have self : u.srv.self = p :=
    (View.Reaches.self_eq (ContextRun.views_of_within path (inbox _)).2).trans isSelf
  have sender (m : StepMessage) (counted : m ∈ msgs) : m.peerID ∈ members ∧ ∃ other msg,
      h m.peerID = some other ∧ other.Sends p msg ∧ msg.stepID = 2 ∧ m.data = msg.data := by
    obtain ⟨msg, heard, isStep, same⟩ := tally.heard m counted
    obtain ⟨isMember, sent⟩ := mem_of_heard here self member heard
    obtain ⟨other, there⟩ := signs.present before isMember
    exact ⟨isMember, other, msg, there, sent other there, isStep, congrArg StepMessage.data same⟩
  have distinct : (msgs.map StepMessage.peerID).Nodup := by
    refine List.Nodup.of_map (getPeerSeed peers) ?_
    rw [List.map_map]
    exact apart
  have listed : msgs.map StepMessage.peerID ⊆ peers.map PeerInfo.peerID := by
    intro q isSender
    obtain ⟨m, counted, rfl⟩ := List.mem_map.mp isSender
    exact signs.covers _ (sender m counted).1
  refine ⟨step, poly', msgs, isStep, isBody, collected, distinct, ?_, fun m counted =>
    (sender m counted).2⟩
  exact (distinct.subperm listed).perm_of_length_le (by simpa using enough)

/-- What is filed under the seed of a node is the value of its polynomial. -/
theorem Signs.contribution (signs : g.Signs cfg members peers mpcID)
    (reaches : ReachesIf Meets kenv cfg members g g') {other : ContextRun}
    (there : g' q = some other) {msg : MpcMessage} (sent : other.Sends p msg)
    (isStep : msg.stepID = 2) (distinct : (peers.map PeerInfo.peerID).Nodup) {peer : PeerInfo}
    (listed : peer ∈ peers) (isPeer : peer.peerID = p) :
    ((msg.data.getD 0 0 : Int) : ZMod N) = (g'.dealt 2 q).eval (peer.seed : ZMod N) := by
  obtain ⟨⟨poly, isBody, -, shares⟩, samePeers⟩ := signs.deals reaches there
  obtain ⟨receiver, inPeers, value, isReceiver, data, cast⟩ :=
    shares (p, msg) (List.mem_append_left _ sent) isStep
  have inList : receiver ∈ peers := samePeers ▸ inPeers
  obtain rfl : receiver = peer :=
    List.inj_on_of_nodup_map distinct inList listed (isReceiver.trans isPeer.symm)
  rw [dealt_eq there isBody, data]
  exact cast

end Group

/-- Finishing the step stores the sum of what has been filed. -/
theorem ContextRun.Within.summed {kenv : KeyEnv} {cfg : Config}
    {arrives : NodeID → MpcMessage → Prop} {i : Nat} {step : Step}
    (within : Within Meets kenv cfg arrives u v) (isPc : u.pc = .finishStep i)
    (isNext : v.pc = .initStep (i + 1)) (isStep : u.ctx.mpcSteps[i]? = some step)
    (isBody : step.body = .rskShare poly) :
    ∃ share : Int, v.ctx.mpcResult.result .rMpcPrivateShare = some [share] ∧
      (share : ZMod N) = (poly.message.map fun entry => (entry.2 : ZMod N)).sum := by
  obtain ⟨action, permits, -, stepped⟩ := within
  obtain ⟨choice, step', body, store, srv, rfl, isStep', finishes, rfl⟩ :=
    (step_does stepped).finished isPc isNext
  cases isStep.symm.trans isStep'
  simp only [Permits, isPc] at permits
  have iterates := permits step isStep
  rw [isBody] at iterates finishes
  obtain ⟨order, isOrder, perm⟩ := iterates
  obtain ⟨between, finished, kept⟩ := StepBody.finish_cases finishes
  simp only [StepBody.finishStep, Outcome.bind_eq_ok_iff] at finished
  obtain ⟨⟨poly', store'⟩, summed, same⟩ := finished
  cases same
  rcases kept with ⟨⟨ptStep, other⟩, -⟩ | ⟨-, rfl, -⟩
  · cases other
  · exact RandomPolynomialValue.finish_sum isOrder perm (by decide) summed

/-! ### Two nodes that add up nonce shares -/

namespace NonceSample

open ReadySample

def nodes (leader peer : MpcContext) : Assoc NodeID ContextRun :=
  [(1, .start (server 1) leader), (2, .start (server 2) peer)]

def dealt (share : Int) : MpcMessage := ⟨7, 2, [], [share], []⟩

/-- Both nodes as far as the wait for nonce shares, with their own. The wait for acknowledgements
is over when there are enough, or when the time is. -/
def begun (ended : List Action) : List (NodeID × List Action) :=
  [(1, plain.moves 11), (2, plain.moves 16),
    (1, hears 2 ⟨7, 0, [], [3], []⟩ ++ ended ++ plain.moves 13),
    (2, hears 1 ⟨7, 1, [], [1], []⟩ ++ plain.moves 7), (1, [.messageLoop 2]), (2, [.messageLoop 2])]

section

variable (cfg : Config) (Meets : ContextRun → Action → Prop)
  [∀ run action, Decidable (Meets run action)]

/-- After these turns, one node adds up the shares in this order. -/
def adds (turns : List (NodeID × List Action)) (p : NodeID) (order : Assoc Nat Int)
    (nodes : Assoc NodeID ContextRun) :
    Option (ContextRun × ContextRun × Assoc NodeID ContextRun) := do
  let mid ← Group.replay KeyFileSample.env cfg Meets [1, 2] turns nodes
  let u ← mid.lookup p
  let v ← ContextRun.replay KeyFileSample.env cfg Meets
    [.mainMPCProcess { plain with orders := ⟨[order], []⟩ }] u
  some (u, v, Assoc.assign mid p v)

/-- The leader adds up its shares after this wait, and then the follower, who is dealt a share. -/
def both (ended wait : List Action) (order : Assoc Nat Int) (share : Int) (order' : Assoc Nat Int) :
    Option ((ContextRun × ContextRun × Assoc NodeID ContextRun) ×
      ContextRun × ContextRun × Assoc NodeID ContextRun) :=
  match createContext cfg .mpcSignLeader 7 peers request,
    createContext cfg .mpcSignPeer 7 peers request with
  | .ok leader, .ok peer => do
    let first ← adds cfg Meets (begun ended ++ [(1, wait ++ plain.moves 1)]) 1 order
      (nodes leader peer)
    let second ← adds cfg Meets [(2, hears 1 (dealt share) ++ plain.moves 2)] 2 order' first.2.2
    some (first, second)
  | _, _ => none

end

variable {cfg : Config}

theorem signs_nodes {leader peer : MpcContext}
    (createdLeader : createContext cfg .mpcSignLeader 7 peers request = .ok leader)
    (createdPeer : createContext cfg .mpcSignPeer 7 peers request = .ok peer) :
    (Group.ofList (nodes leader peer)).Signs cfg [1, 2] peers 7 := by
  refine ⟨fun q member => member, fun q other => ?_, fun q member => ?_⟩
  · cases found : Group.ofList (nodes leader peer) q with
    | none => rfl
    | some run =>
      have listed : q ∈ (nodes leader peer).map Prod.fst :=
        List.mem_map_of_mem (f := Prod.fst) (Assoc.mem_of_lookup found)
      exact absurd listed other
  · simp only [List.mem_cons, List.not_mem_nil, or_false] at member
    rcases member with rfl | rfl
    · refine ⟨server 1, true, request, leader, ?_, rfl, createdLeader⟩
      simp [Group.ofList, nodes]
    · refine ⟨server 2, false, request, peer, ?_, rfl, createdPeer⟩
      simp [Group.ofList, nodes, List.lookup_cons]

variable [∀ run action, Decidable (Meets run action)]

theorem finishing_of_adds {turns : List (NodeID × List Action)} {p : NodeID}
    {nodes after : Assoc NodeID ContextRun}
    (added : adds cfg Meets turns p order nodes = some (u, v, after)) :
    ∃ h : Group, Group.ReachesIf Meets KeyFileSample.env cfg [1, 2] (.ofList nodes) h ∧
      h p = some u ∧
      ContextRun.Within Meets KeyFileSample.env cfg (h.Arrives [1, 2] p) u v ∧
      Group.ofList after = Function.update h p (some v) := by
  simp only [adds, Option.bind_eq_bind, Option.bind_eq_some_iff, Option.some.injEq,
    Prod.mk.injEq] at added
  obtain ⟨mid, replayed, _, here, _, taken, rfl, rfl, rfl⟩ := added
  refine ⟨.ofList mid, Group.reachesIf_of_replay replayed, here, ?_, Group.ofList_assign ..⟩
  unfold ContextRun.replay at taken
  split at taken
  next allowed =>
    split at taken
    next stepped =>
      cases taken
      exact ⟨_, allowed.1.mono (fun _ _ same => by cases same), allowed.2, stepped⟩
    next => cases taken
  next => cases taken

theorem finishings_of_both {ended wait : List Action} {share : Int} {order' : Assoc Nat Int}
    {u' v' : ContextRun} {mid final : Assoc NodeID ContextRun}
    (ran : both cfg Meets ended wait order share order' = some ((u, v, mid), u', v', final))
    (pcs : u.pc = .finishStep 2 ∧ v.pc = .initStep 3 ∧ u'.pc = .finishStep 2 ∧
      v'.pc = .initStep 3) :
    ∃ g g' : Group, g.Signs cfg [1, 2] peers 7 ∧
      Group.ReachesIf Meets KeyFileSample.env cfg [1, 2] g g' ∧
      Group.Finishing Meets KeyFileSample.env cfg [1, 2] g g' 1 2 u v ∧
      Group.Finishing Meets KeyFileSample.env cfg [1, 2] g g' 2 2 u' v' := by
  unfold both at ran
  split at ran
  next leader peer createdLeader createdPeer =>
    simp only [Option.bind_eq_bind, Option.bind_eq_some_iff, Option.some.injEq,
      Prod.mk.injEq] at ran
    obtain ⟨first, added, second, added', rfl, rfl⟩ := ran
    obtain ⟨h, before, here, within, isMid⟩ := finishing_of_adds added
    obtain ⟨h', before', here', within', isFinal⟩ := finishing_of_adds added'
    -- the leader's sum, then the follower's
    have toMid := Relation.ReflTransGen.tail before (.node h 1 u v here within)
    rw [← isMid] at toMid
    have toEnd := Relation.ReflTransGen.tail before' (.node h' 2 u' v' here' within')
    rw [← isFinal] at toEnd
    refine ⟨_, _, signs_nodes createdLeader createdPeer, toMid.trans toEnd, ?_, ?_⟩
    · exact ⟨pcs.1, pcs.2.1, h, before, here, within, isMid ▸ toEnd⟩
    · exact ⟨pcs.2.2.1, pcs.2.2.2, h', toMid.trans before', here', within', isFinal ▸ .refl⟩
  next => cases ran

/-- Where a node is before and after its sum, what it has filed, and the sum. -/
structure Sum where
  before : Pc
  after : Pc
  filed : Option StepBody
  share : Option (List Int)
  deriving DecidableEq

def sum (u v : ContextRun) : Sum :=
  ⟨u.pc, v.pc, u.ctx.mpcSteps[2]?.map Step.body, v.ctx.mpcResult.result .rMpcPrivateShare⟩

def sums (ran : (ContextRun × ContextRun × Assoc NodeID ContextRun) ×
    ContextRun × ContextRun × Assoc NodeID ContextRun) : Sum × Sum :=
  (sum ran.1.1 ran.1.2.1, sum ran.2.1 ran.2.2.1)

/-- The sum of these shares is this one. -/
def Sum.of (coefficients values : List Int) (message : Assoc Nat Int) (share : Int) : Sum :=
  ⟨.finishStep 2, .initStep 3, some (.rskShare ⟨coefficients, message, values, none⟩), some [share]⟩

end NonceSample

/-- If no time-out ends the wait for nonce shares, every node that has added them up has added those
of all peers, and all sums lie on one polynomial. -/
theorem nonce_shares_on_one_polynomial {kenv : KeyEnv} {cfg : Config} {members : List NodeID}
    {peers : List PeerInfo} {mpcID : Nat} {g g' : Group}
    (signs : g.Signs cfg members peers mpcID)
    (reaches : Group.ReachesIf (ContextRun.Punctual 2) kenv cfg members g g') :
    ∃ F : (ZMod N)[X], F.degree < ((cfg.mpcDegree + 1).toNat : WithBot ℕ) ∧
      ∀ p u v, Group.Finishing (ContextRun.Punctual 2) kenv cfg members g g' p 2 u v →
        ∃ step poly share, u.ctx.mpcSteps[2]? = some step ∧ step.body = .rskShare poly ∧
          (poly.message.map Prod.fst).Perm (peers.map PeerInfo.seed) ∧
          v.ctx.mpcResult.result .rMpcPrivateShare = some [share] ∧
          ∀ peer ∈ peers, peer.peerID = p →
            ((share : Int) : ZMod N) = F.eval (peer.seed : ZMod N) := by
  refine ⟨((peers.map PeerInfo.peerID).map (g'.dealt 2)).sum, ?_, ?_⟩
  -- each polynomial has the degree of the configuration, and so has the sum
  · rw [← mem_degreeLT]
    refine list_sum_mem fun poly member => ?_
    obtain ⟨q, -, rfl⟩ := List.mem_map.mp member
    exact mem_degreeLT.mpr (signs.degree_dealt reaches q)
  · rintro p u v ⟨isPc, isNext, h, before, here, within, after⟩
    obtain ⟨step, poly, msgs, isStep, isBody, filed, single, perm, sent⟩ :=
      signs.gathers before here isPc
    have distinct : (peers.map PeerInfo.peerID).Nodup := perm.nodup_iff.mp single
    obtain ⟨share, isShare, cast⟩ := within.summed isPc isNext isStep isBody
    refine ⟨step, poly, share, isStep, isBody, ?_, isShare, fun peer listed isPeer => ?_⟩
    -- one share of every peer, under its seed
    · have keys : poly.message.map Prod.fst =
          (msgs.map StepMessage.peerID).map (getPeerSeed peers) := by
        rw [filed, List.map_map, List.map_map]
        rfl
      rw [← map_getPeerSeed distinct, keys]
      exact perm.map (getPeerSeed peers)
    · have rest : Group.ReachesIf (ContextRun.Punctual 2) kenv cfg members h g' :=
        .head (.node h p u v here within) after
      -- each share is a value of the polynomial of its sender
      have values : (msgs.map fun m => ((m.data.getD 0 0 : Int) : ZMod N)) =
          (msgs.map StepMessage.peerID).map fun q => (g'.dealt 2 q).eval (peer.seed : ZMod N) := by
        rw [List.map_map]
        refine List.map_congr_left fun m counted => ?_
        obtain ⟨other, msg, there, isSent, isStep, data⟩ := sent m counted
        obtain ⟨final, atEnd, sentAtEnd⟩ := rest.sends there isSent
        rw [data]
        exact signs.contribution reaches atEnd sentAtEnd isStep distinct listed isPeer
      rw [cast, filed, List.map_map, eval_listSum, List.map_map]
      exact (congrArg List.sum values).trans (perm.map _).sum_eq

open NonceSample ReadySample in
/-- Both nodes have dealt values of `2 + x`, and their sums are values of `4 + 2x`. -/
theorem nonce_shares_on_one_polynomial_two :
    ∃ (g g' : Group) (u v u' v' : ContextRun) (F : (ZMod N)[X]) (share share' : Int),
      g.Signs ⟨2, 2⟩ [1, 2] peers 7 ∧
      Group.ReachesIf (ContextRun.Punctual 2) KeyFileSample.env ⟨2, 2⟩ [1, 2] g g' ∧
      Group.Finishing (ContextRun.Punctual 2) KeyFileSample.env ⟨2, 2⟩ [1, 2] g g' 1 2 u v ∧
      Group.Finishing (ContextRun.Punctual 2) KeyFileSample.env ⟨2, 2⟩ [1, 2] g g' 2 2 u' v' ∧
      F.degree < (2 : ℕ) ∧ v.ctx.mpcResult.result .rMpcPrivateShare = some [share] ∧
      v'.ctx.mpcResult.result .rMpcPrivateShare = some [share'] ∧
      (share : ZMod N) = F.eval 5 ∧ (share' : ZMod N) = F.eval 6 := by
  have computed : (both ⟨2, 2⟩ (ContextRun.Punctual 2) plain.timesOut
      (hears 2 (dealt 7) ++ plain.moves 1) [(5, 7), (6, 7)] 8 [(6, 8), (5, 8)]).map sums =
        some (.of [2, 1] [7, 8] [(5, 7), (6, 7)] 14, .of [2, 1] [7, 8] [(6, 8), (5, 8)] 16) := by
    decide +kernel
  obtain ⟨⟨⟨u, v, mid⟩, u', v', final⟩, ran, isSums⟩ := Option.map_eq_some_iff.mp computed
  obtain ⟨here, there⟩ := Prod.mk.inj isSums
  obtain ⟨g, g', signs, reaches, first, second⟩ := finishings_of_both ran
    ⟨congrArg Sum.before here, congrArg Sum.after here, congrArg Sum.before there,
      congrArg Sum.after there⟩
  obtain ⟨F, degree, shares⟩ := nonce_shares_on_one_polynomial signs reaches
  obtain ⟨-, -, share, -, -, -, stored, value⟩ := shares 1 u v first
  obtain ⟨-, -, share', -, -, -, stored', value'⟩ := shares 2 u' v' second
  exact ⟨g, g', u, v, u', v', F, share, share', signs, reaches, first, second, degree, stored,
    stored', by simpa using value ⟨1, 5⟩ (by decide +kernel) rfl,
    by simpa using value' ⟨2, 6⟩ (by decide +kernel) rfl⟩

open NonceSample ReadySample in
/-- The time is over for the leader before the share of the follower arrives. The leader has added
its own share only, the follower both, and no constant is both sums. -/
theorem timeOut_parts_nonce_shares :
    ∃ (g g' : Group) (u v u' v' : ContextRun),
      g.Signs ⟨1, 2⟩ [1, 2] peers 7 ∧
      Group.ReachesIf (fun _ _ => True) KeyFileSample.env ⟨1, 2⟩ [1, 2] g g' ∧
      Group.Finishing (fun _ _ => True) KeyFileSample.env ⟨1, 2⟩ [1, 2] g g' 1 2 u v ∧
      Group.Finishing (fun _ _ => True) KeyFileSample.env ⟨1, 2⟩ [1, 2] g g' 2 2 u' v' ∧
      sum u v = .of [2] [2, 2] [(5, 2)] 2 ∧ sum u' v' = .of [2] [2, 2] [(6, 2), (5, 2)] 4 ∧
      ∀ F : (ZMod N)[X], F.degree < (((⟨1, 2⟩ : Config).mpcDegree + 1).toNat : WithBot ℕ) →
        ¬(((2 : Int) : ZMod N) = F.eval 5 ∧ ((4 : Int) : ZMod N) = F.eval 6) := by
  have computed : (both ⟨1, 2⟩ (fun _ _ => True) (plain.moves 1) plain.timesOut [(5, 2)] 2
      [(6, 2), (5, 2)]).map sums =
        some (.of [2] [2, 2] [(5, 2)] 2, .of [2] [2, 2] [(6, 2), (5, 2)] 4) := by
    decide +kernel
  obtain ⟨⟨⟨u, v, mid⟩, u', v', final⟩, ran, isSums⟩ := Option.map_eq_some_iff.mp computed
  obtain ⟨here, there⟩ := Prod.mk.inj isSums
  obtain ⟨g, g', signs, reaches, first, second⟩ := finishings_of_both ran
    ⟨congrArg Sum.before here, congrArg Sum.after here, congrArg Sum.before there,
      congrArg Sum.after there⟩
  refine ⟨g, g', u, v, u', v', signs, reaches, first, second, here, there, ?_⟩
  rintro F degree ⟨two, four⟩
  have constant : F = C (F.coeff 0) := by
    refine eq_C_of_degree_le_zero (Nat.WithBot.lt_one_iff_le_zero.mp ?_)
    exact degree
  rw [constant, eval_C] at two four
  have differ : ((2 : Int) : ZMod N) ≠ ((4 : Int) : ZMod N) := by
    rw [Ne, ZMod.intCast_eq_intCast_iff']
    decide
  exact differ (two.trans four.symm)

end SchnorrMpc
