import SchnorrMpc.Mpc.Run
import SchnorrMpc.Step.Kinds

/-!
# The message loop of a step

A step collects the messages of its peers beside the main process. A run of the
loop is any interleaving of messages that arrive and messages that are handled,
with the initialization of the step somewhere among them.
-/
namespace SchnorrMpc

open Lib

variable {peers : List PeerInfo} {step next start : Step} {msg : StepMessage}
  {rest : List (Option StepMessage)} {May : Step → StepMessage → Prop} {msgs : List StepMessage}
  {peerID : NodeID}

namespace Step

/-- What handling one message makes of a step. -/
inductive Round (peers : List PeerInfo) (step : Step) (msg : StepMessage)
    (rest : List (Option StepMessage)) : Step → Prop where
  /-- The message is for another step, or the step waits for nobody any more. -/
  | ignored (idle : msg.stepId ≠ step.stepId ∨ step.waiting ≤ 0) :
      Round peers step msg rest { step with msgChan := rest }
  | refused {body : StepBody} (same : msg.stepId = step.stepId) (waits : 0 < step.waiting)
      (handled : step.body.handleMessage peers msg = .ok (false, body)) :
      Round peers step msg rest { step with msgChan := rest, body }
  | accepted {body : StepBody} (same : msg.stepId = step.stepId) (waits : 1 < step.waiting)
      (handled : step.body.handleMessage peers msg = .ok (true, body)) :
      Round peers step msg rest
        { step with msgChan := rest, body, waiting := step.waiting - 1 }
  /-- The message that the step still waited for; the main process is told. -/
  | last {body : StepBody} (same : msg.stepId = step.stepId) (waits : step.waiting = 1)
      (room : step.finish.length < 3)
      (handled : step.body.handleMessage peers msg = .ok (true, body)) :
      Round peers step msg rest
        { step with msgChan := rest, body, waiting := 0, finish := step.finish ++ [none] }

theorem Round.kind_stepId (round : Round peers step msg rest next) :
    next.body.kind = step.body.kind ∧ next.stepId = step.stepId := by
  cases round with
  | ignored => exact ⟨rfl, rfl⟩
  | refused _ _ handled => exact ⟨StepBody.handleMessage_kind handled, rfl⟩
  | accepted _ _ handled => exact ⟨StepBody.handleMessage_kind handled, rfl⟩
  | last _ _ _ handled => exact ⟨StepBody.handleMessage_kind handled, rfl⟩

/-- Everything a round of the loop can do, and when. -/
theorem handleMessage_eq_ok_iff {step' : Step} (loops : step.looping = true)
    (head : step.msgChan = some msg :: rest) :
    step.handleMessage peers = some (.ok step') ↔ Round peers step msg rest step' := by
  obtain ⟨body, waiting, waitAll, stepId, capacity, msgChan, finish, looping⟩ := step
  simp only at loops head
  subst loops head
  unfold Step.handleMessage
  constructor
  · intro handled
    simp only at handled
    split at handled
    next idle =>
      cases handled
      exact .ignored idle
    next busy =>
      push Not at busy
      split at handled
      next body' refused =>
        cases handled
        exact .refused busy.1 busy.2 refused
      next body' accepted =>
        split at handled
        next done =>
          -- the counter is at its last message
          obtain rfl : waiting = 1 := by omega
          unfold sendFinish at handled
          split at handled
          next room =>
            cases handled
            exact .last busy.1 rfl room accepted
          next full => cases handled
        next more =>
          cases handled
          exact .accepted busy.1 (by simp only; omega) accepted
      next error failed => cases handled
      next panicked => cases handled
  · intro round
    cases round with
    | ignored idle => simp only [if_pos idle]
    | refused same waits handled =>
      have busy : ¬(msg.stepId ≠ stepId ∨ waiting ≤ 0) := by simp only at same waits; omega
      simp only [if_neg busy, handled]
    | accepted same waits handled =>
      have busy : ¬(msg.stepId ≠ stepId ∨ waiting ≤ 0) := by simp only at same waits; omega
      have more : ¬waiting - 1 ≤ 0 := by simp only at waits; omega
      simp only [if_neg busy, handled, if_neg more]
    | last same waits room handled =>
      simp only at same waits room handled
      subst same waits
      simp [handled, sendFinish, room]

/-- A run of the message loop, with the messages it has handled. They are ones that `May` allows
in the state in which they are handled. -/
inductive Loops (peers : List PeerInfo) (May : Step → StepMessage → Prop) (start : Step) :
    List StepMessage → Step → Prop where
  | start : Loops peers May start [] start
  | arrive {msgs : List StepMessage} {step next : Step} {msg : StepMessage}
      (before : Loops peers May start msgs step)
      (sent : step.sendMessage (some msg) = some next) : Loops peers May start msgs next
  | initStep {msgs : List StepMessage} {step : Step} {env : Env} {store : BaseMpcResult}
      {random : Randomness} {body : StepBody} (before : Loops peers May start msgs step)
      (inits : step.body.initStep env peers store random = some (.ok (body, peers))) :
      Loops peers May start msgs { step with body }
  | handle {msgs : List StepMessage} {step next : Step} {msg : StepMessage}
      {rest : List (Option StepMessage)} (before : Loops peers May start msgs step)
      (loops : step.looping = true) (head : step.msgChan = some msg :: rest)
      (may : May step msg) (handled : step.handleMessage peers = some (.ok next)) :
      Loops peers May start (msgs ++ [msg]) next

theorem sendMessage_eq_some {msg : Option StepMessage} (sent : step.sendMessage msg = some next) :
    step.msgChan.length < step.capacity ∧
      next = { step with msgChan := step.msgChan ++ [msg] } := by
  unfold sendMessage at sent
  split at sent
  next room =>
    cases sent
    exact ⟨room, rfl⟩
  next => cases sent

theorem Loops.invariant {Inv : List StepMessage → Step → Prop} (initially : Inv [] start)
    (arrives : ∀ msgs step msgChan, Inv msgs step → Inv msgs { step with msgChan })
    (inits : ∀ msgs step env store random body, Inv msgs step →
      step.body.initStep env peers store random = some (.ok (body, peers)) →
        Inv msgs { step with body })
    (rounds : ∀ msgs step msg rest next, Inv msgs step → May step msg →
      Round peers step msg rest next → Inv (msgs ++ [msg]) next)
    (run : Loops peers May start msgs step) : Inv msgs step := by
  induction run with
  | start => exact initially
  | arrive _ sent ih =>
    obtain ⟨-, rfl⟩ := sendMessage_eq_some sent
    exact arrives _ _ _ ih
  | initStep _ done ih => exact inits _ _ _ _ _ _ ih done
  | handle _ loops head may handled ih =>
    exact rounds _ _ _ _ _ ih may ((handleMessage_eq_ok_iff loops head).mp handled)

/-- A message arrives and is handled at once. -/
def deliver (peers : List PeerInfo) (step : Step) (msg : StepMessage) : Option Step :=
  match step.sendMessage (some msg) with
  | none => none
  | some step =>
    match step.handleMessage peers with
    | some (.ok next) => some next
    | _ => none

theorem Loops.deliver (run : Loops peers May start msgs step) (loops : step.looping = true)
    (quiet : step.msgChan = [])
    (may : ∀ state, state.body = step.body → state.stepId = step.stepId → May state msg)
    (delivered : step.deliver peers msg = some next) :
    Loops peers May start (msgs ++ [msg]) next ∧ next.looping = true ∧ next.msgChan = [] ∧
      next.body.kind = step.body.kind ∧ next.stepId = step.stepId := by
  unfold Step.deliver at delivered
  split at delivered
  next => cases delivered
  next arrived sent =>
    split at delivered
    next after handled =>
      cases delivered
      obtain ⟨-, rfl⟩ := sendMessage_eq_some sent
      have head : ({ step with msgChan := step.msgChan ++ [some msg] } : Step).msgChan =
          some msg :: [] := by
        simp [quiet]
      have goesOn : ({ step with msgChan := step.msgChan ++ [some msg] } : Step).looping = true :=
        loops
      have round := (handleMessage_eq_ok_iff goesOn head).mp handled
      refine ⟨.handle (.arrive run sent) goesOn head (may _ rfl rfl) handled, ?_, ?_,
        round.kind_stepId.1, round.kind_stepId.2⟩
      · cases round <;> exact loops
      · cases round <;> rfl
    next => cases delivered

theorem Loops.deliverAll (loops : start.looping = true) (quiet : start.msgChan = [])
    (may : ∀ msg ∈ msgs, ∀ state, state.body.kind = start.body.kind → state.stepId = start.stepId →
      May state msg)
    (delivered : msgs.foldlM (Step.deliver peers) start = some step) :
    Loops peers May start msgs step := by
  suffices all : Loops peers May start msgs step ∧ step.looping = true ∧ step.msgChan = [] ∧
      step.body.kind = start.body.kind ∧ step.stepId = start.stepId from all.1
  induction msgs using List.reverseRecOn generalizing step with
  | nil =>
    cases delivered
    exact ⟨.start, loops, quiet, rfl, rfl⟩
  | append_singleton msgs msg ih =>
    rw [List.foldlM_append, Option.bind_eq_bind, Option.bind_eq_some_iff] at delivered
    obtain ⟨middle, before, last⟩ := delivered
    obtain ⟨run, goesOn, empty, isKind, isId⟩ :=
      ih (fun msg member => may msg (List.mem_append_left _ member)) before
    have once : middle.deliver peers msg = some step := by simpa using last
    obtain ⟨whole, still, drained, kept, sameId⟩ := run.deliver goesOn empty
      (fun state body stepId => may msg (by simp) state ((congrArg _ body).trans isKind)
        (stepId.trans isId)) once
    exact ⟨whole, still, drained, kept.trans isKind, sameId.trans isId⟩

end Step

/-! ### Seeds of listed peers -/

theorem getPeerSeed_of_mem (listed : peerID ∈ peers.map PeerInfo.peerID) :
    ∃ peer ∈ peers, peer.peerID = peerID ∧ getPeerSeed peers peerID = peer.seed := by
  obtain ⟨peer, member, rfl⟩ := List.mem_map.mp listed
  unfold getPeerSeed
  split
  next item found =>
    have same : item.peerID = peer.peerID := by simpa using List.find?_some found
    exact ⟨item, List.mem_of_find?_eq_some found, same, rfl⟩
  next missing =>
    have differs := List.find?_eq_none.mp missing peer member
    simp at differs

theorem getPeerSeed_of_not_mem (outside : peerID ∉ peers.map PeerInfo.peerID) :
    getPeerSeed peers peerID = 0 := by
  unfold getPeerSeed
  split
  next item found =>
    have same : item.peerID = peerID := by simpa using List.find?_some found
    exact absurd (List.mem_map.mpr ⟨item, List.mem_of_find?_eq_some found, same⟩) outside
  next => rfl

theorem getPeerSeed_injective (seeds : (peers.map PeerInfo.seed).Nodup) {left right : NodeID}
    (leftListed : left ∈ peers.map PeerInfo.peerID)
    (rightListed : right ∈ peers.map PeerInfo.peerID)
    (same : getPeerSeed peers left = getPeerSeed peers right) : left = right := by
  obtain ⟨peer, member, rfl, isSeed⟩ := getPeerSeed_of_mem leftListed
  obtain ⟨other, otherMember, rfl, isOther⟩ := getPeerSeed_of_mem rightListed
  rw [isSeed, isOther] at same
  rw [List.inj_on_of_nodup_map seeds member otherMember same]

theorem map_getPeerSeed (distinct : (peers.map PeerInfo.peerID).Nodup) :
    (peers.map PeerInfo.peerID).map (getPeerSeed peers) = peers.map PeerInfo.seed := by
  rw [List.map_map]
  refine List.map_congr_left fun peer listed => ?_
  obtain ⟨other, inPeers, sameID, isSeed⟩ :=
    getPeerSeed_of_mem (List.mem_map_of_mem (f := PeerInfo.peerID) listed)
  rw [Function.comp_apply, isSeed, List.inj_on_of_nodup_map distinct inPeers listed sameID]

end SchnorrMpc
