import SchnorrMpc.Properties.Quiescence

/-!
# A key generation does not go on for ever

Every move of a context uses up some of what is left for it to do, and only
letters add to that. A context sends a bounded number of letters, so the number
of moves of a group is bounded by a polynomial in its size.

## Main results

* `ContextRun.potential_lt`: a move of a context without a letter lowers its potential.
* `Deployment.Sound.total_lt`: a move of a group lowers the sum over its nodes.
-/
namespace SchnorrMpc

open Lib

variable {result : Option Err} {step step' : Step} {peers : List PeerInfo} {i : Nat}
  {choice : Choice} {ctx : MpcContext}

/-! ### What is left to do -/

/-- How many moves the main process can still make, with this many steps and peers. -/
def Pc.rank (steps peers : Nat) : Pc → Nat
  | .panicked => 0
  | .returned _ => 1
  | .quitting _ sends => 2 * steps - sends + 2
  | .quit _ => 2 * steps + 3
  | .failing _ peerIDs => peerIDs.length + 2 * steps + 4
  | .finishStep i => (steps - i - 1) * (peers + 5) + 1 + (peers + 2 * steps + 5)
  | .stopping i _ => (steps - i - 1) * (peers + 5) + 2 + (peers + 2 * steps + 5)
  | .waiting i => (steps - i - 1) * (peers + 5) + 3 + (peers + 2 * steps + 5)
  | .sending i parcels =>
    (steps - i - 1) * (peers + 5) + (parcels.length + 4) + (peers + 2 * steps + 5)
  | .initStep i => (steps - i) * (peers + 5) + (peers + 2 * steps + 5)
  | .initMessageLoop i =>
    steps * (peers + 5) + (peers + 2 * steps + 5) + (steps - i) + 1

theorem Step.QuitPut.length_msgChan {sends : Nat} (put : step.QuitPut result sends step') :
    step'.msgChan.length ≤ step.msgChan.length + 1 := by
  cases put <;> simp

theorem Step.Round.msgChan_eq {msg : StepMessage} {rest : List (Option StepMessage)}
    (round : Step.Round peers step msg rest step') : step'.msgChan = rest := by
  cases round <;> rfl

namespace ContextRun

def rank (run : ContextRun) : Nat := run.pc.rank run.ctx.mpcSteps.length run.ctx.peers.length

/-- How many messages are on the channels of the steps. -/
def backlog (run : ContextRun) : Nat := (run.ctx.mpcSteps.map fun step => step.msgChan.length).sum

/-- How many sends the quitter has still to do. -/
def quitRank (run : ContextRun) : Nat :=
  match run.quitter with
  | none => 0
  | some (_, sends) => 2 * run.ctx.mpcSteps.length - sends + 1

/-- A move of the main process or of the quitter can put one message on a channel. -/
def potential (run : ContextRun) : Nat := 2 * run.rank + run.backlog + 2 * run.quitRank

variable {kenv : KeyEnv} {cfg : Config} {run next : ContextRun} {action : Action}

theorem sum_map_set {α : Type} (f : α → Nat) {list : List α} {old new : α}
    (found : list[i]? = some old) :
    ((list.set i new).map f).sum + f old = (list.map f).sum + f new := by
  induction list generalizing i with
  | nil => cases found
  | cons head rest ih =>
    cases i with
    | zero =>
      cases found
      simp only [List.set_cons_zero, List.map_cons, List.sum_cons]
      omega
    | succ i =>
      have same := ih found
      simp only [List.set_cons_succ, List.map_cons, List.sum_cons]
      omega

theorem backlog_set (found : run.ctx.mpcSteps[i]? = some step)
    (isNext : next.ctx.mpcSteps = run.ctx.mpcSteps.set i step') :
    next.backlog + step.msgChan.length = run.backlog + step'.msgChan.length := by
  rw [backlog, backlog, isNext]
  exact sum_map_set _ found

theorem Does.length_ctx_peers (does : Does kenv cfg run action next)
    (permits : run.Permits (fun _ _ => True) action) :
    next.ctx.peers.length = run.ctx.peers.length := by
  cases does with
  | inits isPc found inits =>
    simp only [Permits, isPc] at permits
    simpa using congrArg List.length (StepBody.initStep_peerIDs inits)
  | turns | startsLoop | skipsLoop | sends | sendsOwn | waits | stops | finishes | fails | quits
  | quitPuts | loopStops | loopRounds | loopPanics | arrives | quitter | quitterEnds
  | quitterPuts => rfl

theorem rank_step {steps peers : Nat} (inside : i < steps) :
    (steps - i) * (peers + 5) = (steps - i - 1) * (peers + 5) + (peers + 5) := by
  obtain ⟨rest, isRest⟩ : ∃ rest, steps - i = rest + 1 := ⟨steps - i - 1, by omega⟩
  rw [isRest, Nat.add_sub_cancel, Nat.succ_mul]

theorem Turns.rank_lt {pc : Pc} (turn : run.Turns kenv cfg choice pc) :
    pc.rank run.ctx.mpcSteps.length run.ctx.peers.length < run.rank := by
  unfold rank
  cases turn with
  | loopsStarted isPc | stepsDone isPc | parcelsSent isPc | timesOut isPc | errorSent isPc
  | hasQuit isPc | quitEnds isPc =>
    rw [isPc]
    simp only [Pc.rank, Nat.sub_zero, List.length_nil]
    omega
  | initFails isPc | finishFails isPc =>
    rw [isPc]
    simp only [Pc.rank, List.length_map]
    omega
  | panics isPc =>
    rcases isPc with isPc | isPc <;> rw [isPc] <;> simp only [Pc.rank] <;> omega

theorem afterWait_rank :
    (run.afterWait i result).rank run.ctx.mpcSteps.length run.ctx.peers.length <
      (Pc.stopping i result).rank run.ctx.mpcSteps.length run.ctx.peers.length := by
  cases result with
  | none =>
    simp only [afterWait, Pc.rank]
    omega
  | some error =>
    simp only [afterWait, Pc.rank, List.length_map]
    omega

/-- The main process uses up its rank. -/
theorem Does.rank_lt (does : Does kenv cfg run (.mainMPCProcess choice) next)
    (permits : run.Permits (fun _ _ => True) (.mainMPCProcess choice)) : next.rank < run.rank := by
  have steps := does.length
  have peers := does.length_ctx_peers permits
  unfold rank
  rw [steps, peers]
  cases does with
  | turns turn => exact turn.rank_lt
  | startsLoop isPc found | skipsLoop isPc found =>
    have inside := (List.getElem?_eq_some_iff.mp found).1
    rw [isPc]
    simp only [Pc.rank]
    omega
  -- at most one parcel a peer is made
  | @inits _ i step body peers' out isPc found _ creates =>
    have inside := (List.getElem?_eq_some_iff.mp found).1
    have each : ((out.flatMap (parcels run.srv run.ctx.contextID i peers')).map
        Parcel.receiver).Sublist (peers'.map PeerInfo.peerID) := receivers_createMessage creates
    have fewer := each.length_le
    have same : peers'.length = run.ctx.peers.length := peers
    rw [List.length_map, List.length_map, same] at fewer
    rw [isPc]
    simp only [Pc.rank, rank_step inside]
    omega
  | sends isPc | sendsOwn isPc | waits isPc | finishes isPc | fails isPc | quits isPc =>
    rw [isPc]
    simp only [Pc.rank, List.length_cons, Nat.sub_zero, Nat.sub_sub]
    omega
  | stops isPc =>
    rw [isPc]
    exact afterWait_rank
  | quitPuts isPc found =>
    have inside := (List.getElem?_eq_some_iff.mp found).1
    rw [isPc]
    simp only [Pc.rank]
    omega

theorem Does.sent_rank (does : Does kenv cfg run action next)
    (permits : run.Permits (fun _ _ => True) action) :
    next.sent.length + next.rank ≤ run.sent.length + run.rank := by
  have steps := does.length
  have peers := does.length_ctx_peers permits
  have stays (samePc : next.pc = run.pc) : next.rank = run.rank := by
    rw [rank, rank, samePc, steps, peers]
  have less (choice : Choice) (isMain : action = .mainMPCProcess choice) :
      next.rank < run.rank := by
    subst isMain
    exact does.rank_lt permits
  cases does with
  | turns | startsLoop | skipsLoop | inits | waits | stops | finishes | quits | quitPuts =>
    exact Nat.add_le_add_left (less _ rfl).le _
  | sends | sendsOwn | fails =>
    rw [List.length_append, List.length_singleton]
    exact Nat.add_assoc _ 1 _ ▸ Nat.add_le_add_left (Nat.one_add _ ▸ less _ rfl) _
  | loopPanics => exact Nat.add_le_add_left (Nat.zero_le _) _
  | loopStops | loopRounds | arrives | quitter | quitterEnds | quitterPuts =>
    exact Nat.add_le_add_left (stays rfl).le _

theorem backlog_le (found : run.ctx.mpcSteps[i]? = some step)
    (isNext : next.ctx.mpcSteps = run.ctx.mpcSteps.set i step')
    (one : step'.msgChan.length ≤ step.msgChan.length + 1) : next.backlog ≤ run.backlog + 1 := by
  have same := backlog_set found isNext
  omega

theorem Does.backlog_le (does : Does kenv cfg run (.mainMPCProcess choice) next) :
    next.backlog ≤ run.backlog + 1 := by
  cases does with
  | turns | sends | fails | quits => exact Nat.le_succ _
  | startsLoop _ found | skipsLoop _ found | inits _ found | finishes _ found | waits _ found =>
    exact ContextRun.backlog_le found rfl (Nat.le_succ _)
  | sendsOwn _ _ _ found | stops _ found =>
    exact ContextRun.backlog_le found rfl (by rw [List.length_append, List.length_singleton])
  | quitPuts _ found put => exact ContextRun.backlog_le found rfl put.length_msgChan

theorem Does.loop (does : Does kenv cfg run (.messageLoop i) next) :
    next = run.panic ∨
      next.pc = run.pc ∧ next.quitter = run.quitter ∧ next.backlog < run.backlog := by
  have taken {step step' : Step} {rest : List (Option StepMessage)} {msg : Option StepMessage}
      (found : run.ctx.mpcSteps[i]? = some step) (head : step.msgChan = msg :: rest)
      (isRest : step'.msgChan = rest) : (run.setStep i step').backlog < run.backlog := by
    have same := backlog_set found (setStep_mpcSteps run i step')
    rw [head, isRest, List.length_cons] at same
    omega
  cases does with
  | loopStops found loops head => exact .inr ⟨rfl, rfl, taken found head rfl⟩
  | loopRounds found loops head round => exact .inr ⟨rfl, rfl, taken found head round.msgChan_eq⟩
  | loopPanics => exact .inl rfl

theorem Does.quitterSends (does : Does kenv cfg run .quitterSend next) :
    next.pc = run.pc ∧ next.backlog ≤ run.backlog + 1 ∧ next.quitRank < run.quitRank := by
  cases does with
  | quitterEnds isQuitter =>
    refine ⟨rfl, Nat.le_succ _, ?_⟩
    simp only [quitRank, isQuitter]
    omega
  | quitterPuts isQuitter found put =>
    have inside := (List.getElem?_eq_some_iff.mp found).1
    refine ⟨rfl, ContextRun.backlog_le found rfl put.length_msgChan, ?_⟩
    simp only [quitRank, isQuitter, setStep_mpcSteps, List.length_set]
    omega

/-- What a context does without a letter lowers its potential. -/
theorem potential_lt (internal : action.Internal) (permits : run.Permits (fun _ _ => True) action)
    (stepped : run.step kenv cfg action = some next) : next.potential < run.potential := by
  have does := step_does stepped
  have steps := does.length
  have peers := does.length_ctx_peers permits
  have rank_eq (samePc : next.pc = run.pc) : next.rank = run.rank := by
    rw [rank, rank, samePc, steps, peers]
  have quitRank_eq (same : next.quitter = run.quitter) : next.quitRank = run.quitRank := by
    simp only [quitRank, same, steps]
  unfold potential
  cases action with
  | mainMPCProcess choice =>
    have less := does.rank_lt permits
    have one := does.backlog_le
    have same := quitRank_eq (by cases does <;> rfl)
    omega
  | messageLoop i =>
    rcases does.loop with panics | ⟨samePc, sameQuitter, less⟩
    · -- The whole process is over, and it was not before.
      have alive : run.pc ≠ .panicked := by
        intro isPc
        simp [step, isPc] at stepped
      have positive : 0 < run.rank := by
        unfold rank
        cases isPc : run.pc <;> simp only [Pc.rank] <;> first | omega | exact absurd isPc alive
      subst panics
      have none : run.panic.rank = 0 := rfl
      have same : run.panic.backlog = run.backlog ∧ run.panic.quitRank = run.quitRank := ⟨rfl, rfl⟩
      omega
    · rw [rank_eq samePc, quitRank_eq sameQuitter]
      omega
  | quitterSend =>
    obtain ⟨samePc, one, less⟩ := does.quitterSends
    rw [rank_eq samePc]
    omega
  | getMessage | quitMpcContext => exact internal.elim

theorem Does.arrives_potential {sender : NodeID} {msg : MpcMessage}
    (does : Does kenv cfg run (.getMessage sender msg) next) :
    next.potential ≤ run.potential + 1 := by
  have steps := does.length
  have one : next.backlog ≤ run.backlog + 1 := by
    cases does with
    | arrives _ found =>
      exact ContextRun.backlog_le found rfl (by rw [List.length_append, List.length_singleton])
  have same : next.pc = run.pc ∧ next.quitter = run.quitter ∧ next.ctx.peers = run.ctx.peers := by
    cases does
    exact ⟨rfl, rfl, rfl⟩
  simp only [potential, rank, quitRank, same.1, same.2.1, same.2.2, steps]
  omega

theorem Does.quitter_potential {text : Bytes}
    (does : Does kenv cfg run (.quitMpcContext text) next) :
    next.potential ≤ run.potential + (4 * run.ctx.mpcSteps.length + 2) := by
  cases does
  simp only [potential, rank, backlog, quitRank, Nat.sub_zero]
  omega

theorem potential_start {srv : MpcDistributor} {cfg : Config} {ctxType : CtxType} {mpcID : Nat}
    {preSetValue : List MpcValue}
    (created : createContext cfg ctxType mpcID peers preSetValue = .ok ctx) :
    (start srv ctx).potential = 2 * (start srv ctx).rank := by
  have empty : (start srv ctx).backlog = 0 := by
    rw [backlog, List.sum_eq_zero]
    intro n listed
    obtain ⟨step, member, rfl⟩ := List.mem_map.mp listed
    rw [(unused_of_createContext created step member).msgChan, List.length_nil]
  rw [potential, empty]
  rfl

theorem Runs.length_sent {Meets : ContextRun → Action → Prop} {begin : ContextRun}
    {heard : List (NodeID × MpcMessage)} (runs : Runs kenv cfg Meets begin heard run)
    (nothing : begin.sent = []) : run.sent.length ≤ begin.rank := by
  refine le_trans (Nat.le_add_right _ run.rank) ?_
  refine runs.invariant (fun _ run => run.sent.length + run.rank ≤ begin.rank) ?_ ?_
  · rw [nothing, List.length_nil, Nat.zero_add]
  · intro heard run action next _ before permits _ does
    exact (does.sent_rank permits).trans before

end ContextRun

/-! ### Nodes and groups -/

/-- What the context of a node can still do, in a group of `n`. -/
def Member.left (n : Nat) : Member → Nat
  | idle _ | removed _ => 0
  | created _ _ => 12 * n + 94
  | registered run => run.potential + 1

/-- No node is sent more letters. -/
def letterBound (n : Nat) : Nat := n * (6 * n + 46)

/-- A letter can make a context, or add to what one has to do. -/
def Node.left (n : Nat) (node : Node) : Nat :=
  (12 * n + 95) * (letterBound n - node.taken.length) + node.member.left n

/-- No key generation in a group of `n` takes more moves. -/
def moveBound (n : Nat) : Nat := n * ((12 * n + 95) * letterBound n + (12 * n + 94))

namespace Deployment

variable {env : NodeEnv} {cfg : Config} {group : List NodeID} {leader : NodeID} {mpcID : Nat}
  {d d' : Deployment} {p : NodeID} {srv : MpcDistributor} {node next : Node} {run : ContextRun}

theorem rank_start_eq {leads : Bool}
    (created : createContext cfg (if leads then .mpcGPKLeader else .mpcGPKPeer) mpcID peers [] =
      .ok ctx)
    (number : ctx.peers.length = group.length) :
    (ContextRun.start srv ctx).rank = 6 * group.length + 46 := by
  have steps : ctx.mpcSteps.length = 5 := by
    simpa using congrArg List.length (createContext_gpkStart created).kinds
  simp only [ContextRun.rank, ContextRun.start, Pc.rank, steps, number]
  omega

section

variable (sound : Sound env cfg group leader mpcID d) (small : group.length ≤ 256)

include sound small

theorem Sound.rank_start (fits : Fits env cfg group leader mpcID d p srv node)
    (has : node.member.Has run)
    (origin : Node.Origin env cfg (decide (p = leader)) mpcID srv node.taken ctx)
    (runs : ContextRun.Runs env.toKeyEnv cfg ContextRun.Prompt (.start srv ctx)
      (node.heard.map Letter.entry) run) :
    (ContextRun.start srv ctx).rank = 6 * group.length + 46 := by
  refine rank_start_eq origin.created ?_
  rw [← sound.length_peers small fits has]
  simpa using (congrArg List.length (runs.keeps origin.created).ids).symm

theorem Sound.length_sent (fits : Fits env cfg group leader mpcID d p srv node) :
    node.member.sent.length ≤ 6 * group.length + 46 := by
  by_cases none : node.member.sent = []
  · rw [none]
    exact Nat.zero_le _
  · obtain ⟨run, has⟩ := fits.history.has_of_sent none
    obtain ⟨ctx, origin, runs⟩ := fits.history.runs has
    rw [Member.sent_of_has has, ← sound.rank_start small fits has origin runs]
    exact runs.length_sent rfl

/-- The letters that a node has taken are among those that have been sent. -/
theorem Sound.length_taken (fits : Fits env cfg group leader mpcID d p srv node) :
    node.taken.length ≤ letterBound group.length := by
  let letters (q : NodeID) : List Letter := (d q).elim [] fun other =>
    other.member.sent.zipIdx.map fun entry => ⟨q, entry.2, entry.1⟩
  have sent : node.taken ⊆ group.flatMap letters := by
    intro letter taken
    obtain ⟨other, there, found, -⟩ := fits.came letter taken
    have inGroup := (sound.sender (fits.came letter taken)).1
    refine List.mem_flatMap.mpr ⟨letter.sender, inGroup, ?_⟩
    simp only [letters, there, Option.elim_some]
    exact List.mem_map.mpr ⟨(letter.parcel, letter.number),
      List.mk_mem_zipIdx_iff_getElem?.mpr found, rfl⟩
  have each (q : NodeID) (member : q ∈ group) : (letters q).length ≤ 6 * group.length + 46 := by
    obtain ⟨srvQ, nodeQ, fitsQ⟩ := sound.inside q member
    simp only [letters, fitsQ.here, Option.elim_some, List.length_map, List.length_zipIdx]
    exact sound.length_sent small fitsQ
  calc node.taken.length
      ≤ (group.flatMap letters).length := (fits.once.subperm sent).length_le
    _ = (group.map fun q => (letters q).length).sum := List.length_flatMap ..
    _ ≤ (group.map fun q => (letters q).length).length • (6 * group.length + 46) := by
      refine List.sum_le_card_nsmul _ _ fun length listed => ?_
      obtain ⟨q, member, rfl⟩ := List.mem_map.mp listed
      exact each q member
    _ = letterBound group.length := by rw [List.length_map, smul_eq_mul, letterBound]

/-- Every move of a node uses up some of what is left to it. -/
theorem Sound.left_lt (here : d p = some node)
    (taken : node.Moves env cfg (Network.Arrives (· ∈ group) Node.Sends d p) next) :
    next.left group.length < node.left group.length := by
  have inGroup := sound.member_of_here here
  obtain ⟨srv, node', fits⟩ := sound.inside p inGroup
  cases fits.here.symm.trans here
  -- What has been taken after the move has been sent, so letters do not run out before they come.
  have after := sound.moves (.node d p node next here taken)
  obtain ⟨srv', next', fits'⟩ := after.inside p inGroup
  cases fits'.here.symm.trans (Function.update_self ..)
  have enough := after.length_taken small fits'
  -- a letter is worth more than what it can set in motion
  have letters {letter : Letter} (isTaken : next.taken = node.taken ++ [letter])
      (less : next.member.left group.length <
        12 * group.length + 95 + node.member.left group.length) :
      next.left group.length < node.left group.length := by
    rw [isTaken, List.length_append, List.length_singleton] at enough
    obtain ⟨rest, isRest⟩ := Nat.exists_eq_add_of_le enough
    have before : letterBound group.length - node.taken.length = rest + 1 := by omega
    have now : letterBound group.length - (node.taken.length + 1) = rest := by omega
    rw [Node.left, Node.left, isTaken, List.length_append, List.length_singleton, before, now,
      Nat.mul_succ]
    omega
  cases taken with
  | @register srv'' ctx isMember =>
    have number := after.length_peers small fits' (.inl rfl)
    obtain ⟨member, taken, heard⟩ := node
    cases isMember
    cases fits.history with
    | created origin =>
      have whole : (ContextRun.start srv ctx).potential = 2 * (6 * group.length + 46) := by
        rw [ContextRun.potential_start origin.created, rank_start_eq origin.created number]
      simp only [Node.left, Member.left, whole]
      omega
  | act isMember internal permits stepped =>
    have less := ContextRun.potential_lt internal permits stepped
    simp only [Node.left, isMember, Member.left]
    omega
  | remove isMember =>
    simp only [Node.left, isMember, Member.left]
    omega
  | take comes once took =>
    cases Node.takes_of_take took with
    | drops => exact letters rfl (Nat.lt_add_of_pos_left (Nat.succ_pos _))
    | answers isMember =>
      refine letters rfl ?_
      simp only [isMember, Member.left]
      omega
    | hears isMember _ stepped =>
      have more := (ContextRun.step_does stepped).arrives_potential
      refine letters rfl ?_
      simp only [isMember, Member.left]
      omega
    | quits isMember _ stepped =>
      have more := (ContextRun.step_does stepped).quitter_potential
      rw [Sound.length_steps fits (.inl isMember)] at more
      refine letters rfl ?_
      simp only [isMember, Member.left]
      omega

theorem Sound.total_lt (moves : Moves env cfg group d d') :
    Network.total group (Node.left group.length) d' <
      Network.total group (Node.left group.length) d := by
  obtain ⟨p, node, next, here, taken⟩ := moves
  exact Network.total_update_lt (sound.member_of_here here) here (sound.left_lt small here taken)

end

theorem Starts.total_le (starts : Starts cfg group leader mpcID d) :
    Network.total group (Node.left group.length) d ≤ moveBound group.length := by
  have each (p : NodeID) (member : p ∈ group) :
      (d p).elim 0 (Node.left group.length) ≤
        (12 * group.length + 95) * letterBound group.length + (12 * group.length + 94) := by
    by_cases leads : p = leader
    · obtain ⟨srv, ctx, here, -⟩ := starts.leads
      rw [leads, here]
      exact le_rfl
    · obtain ⟨srv, here, -⟩ := starts.follows p member leads
      rw [here]
      exact Nat.le_add_right _ _
  exact Network.total_le each

theorem Starts.total_after (starts : Starts cfg group leader mpcID d) (small : group.length ≤ 256)
    {path : Nat → Deployment} (first : path 0 = d) (n : Nat)
    (moves : ∀ i < n, Moves env cfg group (path i) (path (i + 1))) :
    Reaches env cfg group d (path n) ∧
      n + Network.total group (Node.left group.length) (path n) ≤ moveBound group.length := by
  induction n with
  | zero =>
    rw [first]
    exact ⟨.refl, (Nat.zero_add _).symm ▸ starts.total_le⟩
  | succ n ih =>
    obtain ⟨reaches, left⟩ := ih fun i inside => moves i (Nat.lt_succ_of_lt inside)
    have last := moves n (Nat.lt_succ_self n)
    have less := (Reaches.sound starts reaches).total_lt small last
    exact ⟨reaches.tail last, by omega⟩

theorem Sound.exists_quiet (sound : Sound env cfg group leader mpcID d)
    (small : group.length ≤ 256) : ∃ d', Reaches env cfg group d d' ∧ d'.Quiet env cfg group := by
  induction bound : Network.total group (Node.left group.length) d using Nat.strong_induction_on
    generalizing d with
  | _ bound ih =>
    by_cases quiet : d.Quiet env cfg group
    · exact ⟨d, .refl, quiet⟩
    · obtain ⟨next, moves⟩ := not_forall_not.mp quiet
      obtain ⟨d', reaches, isQuiet⟩ := ih _ (bound ▸ sound.total_lt small moves)
        (sound.moves moves) rfl
      exact ⟨d', .head moves reaches, isQuiet⟩

end Deployment

/-- Let the nodes of a group generate a key over a network that delivers each letter at most once,
and let no step time out. The number of moves that they can make, failures and all, is bounded by a
polynomial in the size of the group, and whatever they have done, they can come to where nothing
more happens. To draw the seeds is one move, made when the numbers drawn lead out of the loop. -/
theorem key_generation_terminates (env : NodeEnv) (cfg : Config) (group : List NodeID)
    (leader : NodeID) (mpcID : Nat) (d : Deployment) (small : group.length ≤ 256)
    (starts : Deployment.Starts cfg group leader mpcID d) (n : Nat) (path : Nat → Deployment)
    (first : path 0 = d)
    (moves : ∀ i < n, Deployment.Moves env cfg group (path i) (path (i + 1))) :
    n ≤ moveBound group.length ∧
      ∃ d', Deployment.Reaches env cfg group (path n) d' ∧
        Deployment.Quiet env cfg group d' := by
  obtain ⟨reaches, left⟩ := starts.total_after small first n moves
  exact ⟨le_trans (Nat.le_add_right _ _) left,
    (Deployment.Reaches.sound starts reaches).exists_quiet small⟩

/-- The moves up to where the leader has told the follower that all are ready. -/
theorem key_generation_terminates_pair :
    ∃ path : Nat → Deployment, Deployment.Starts ⟨1, 2⟩ [1, 2] 1 7 (path 0) ∧
      (∀ i < 44, Deployment.Moves PairSample.env ⟨1, 2⟩ [1, 2] (path i) (path (i + 1))) ∧
      44 ≤ moveBound 2 ∧ ∃ d', Deployment.Reaches PairSample.env ⟨1, 2⟩ [1, 2] (path 44) d' ∧
        Deployment.Quiet PairSample.env ⟨1, 2⟩ [1, 2] d' := by
  obtain ⟨leader, created⟩ : ∃ leader, createRequestGPK ⟨1, 2⟩ traceServer 7 = .ok leader :=
    ⟨_, rfl⟩
  have ran : (PairSample.run PairSample.env PairSample.handshake).isSome := by decide +kernel
  obtain ⟨final, followed⟩ := Option.isSome_iff_exists.mp ran
  rw [PairSample.run, created] at followed
  obtain ⟨path, first, -, moves⟩ := Deployment.path_of_follow followed
  have starts : Deployment.Starts ⟨1, 2⟩ [1, 2] 1 7 (path 0) := first ▸ PairSample.starts created
  obtain ⟨bounded, quiet⟩ := key_generation_terminates PairSample.env ⟨1, 2⟩ [1, 2] 1 7 (path 0)
    (by decide) starts 44 path rfl moves
  exact ⟨path, starts, moves, bounded, quiet⟩

end SchnorrMpc
