import SchnorrMpc.Properties.Ledger
import SchnorrMpc.Properties.PeerLists

/-!
# What a key generation has posted

Every step makes its parcels when it is initialized, one for each peer, and the
peers can read them. Errors are only posted by a run that has failed.

## Main results

* `ContextRun.Does.posting`: what one move adds to the parcels of a run.
* `ContextRun.Does.mailing`: the parcels of each step, one for each peer.
* `ContextRun.Runs.keeps`: what holds in every state of a key generation.
-/
namespace SchnorrMpc

open Lib

variable {parcel : Parcel} {leader : Bool} {body : StepBody} {peers : List PeerInfo}
  {out : List OutMessage} {srv : MpcDistributor} {contextID i : Nat} {ctx : MpcContext}

/-! ### How a run ends -/

/-- The run has met an error, or the process has died. -/
def Pc.Failed : Pc → Prop
  | .failing _ _ | .panicked => True
  | .stopping _ result | .quit result | .quitting result _ | .returned result => result ≠ none
  | .initMessageLoop _ | .initStep _ | .sending _ _ | .waiting _ | .finishStep _ => False

/-- All steps are done. -/
def Pc.Complete : Pc → Prop
  | .quit result | .quitting result _ | .returned result => result = none
  | .initMessageLoop _ | .initStep _ | .sending _ _ | .waiting _ | .stopping _ _ | .finishStep _
  | .failing _ _ | .panicked => False

/-- The parcels that are still to be sent. -/
def Pc.pending : Pc → List Parcel
  | .sending _ parcels => parcels
  | .initMessageLoop _ | .initStep _ | .waiting _ | .stopping _ _ | .finishStep _ | .failing _ _
  | .quit _ | .quitting _ _ | .returned _ | .panicked => []

namespace ContextRun

/-- Everything that has been sent, and what is about to be. -/
def posted (run : ContextRun) : List Parcel := run.sent ++ run.pc.pending

variable {kenv : KeyEnv} {cfg : Config} {run next : ContextRun} {action : Action} {k : Nat}

section

variable (does : Does kenv cfg run action next)

include does

theorem Does.failed (failed : run.pc.Failed) : next.pc.Failed := by
  cases does with
  | turns turn =>
    cases turn with
    | loopsStarted isPc | stepsDone isPc | parcelsSent isPc | timesOut isPc =>
      rw [isPc] at failed
      exact failed.elim
    | initFails | finishFails | panics => trivial
    | errorSent => simp [Pc.Failed]
    | hasQuit isPc | quitEnds isPc =>
      rw [isPc] at failed
      exact failed
  | startsLoop isPc | skipsLoop isPc | inits isPc | sends isPc | sendsOwn isPc | waits isPc
  | finishes isPc =>
    rw [isPc] at failed
    exact failed.elim
  | @stops _ _ result _ isPc =>
    rw [isPc] at failed
    cases result with
    | none => exact absurd rfl failed
    | some => trivial
  | fails | loopPanics => trivial
  | quits isPc | quitPuts isPc =>
    rw [isPc] at failed
    exact failed
  | loopStops | loopRounds | arrives | quitter | quitterEnds | quitterPuts => exact failed

theorem Does.complete_cases (complete : next.pc.Complete) :
    run.pc.Complete ∨ ∃ i, run.pc = .initStep i ∧ run.ctx.mpcSteps[i]? = none := by
  cases does with
  | turns turn =>
    cases turn with
    | stepsDone isPc isEnd => exact .inr ⟨_, isPc, isEnd⟩
    | hasQuit isPc | quitEnds isPc =>
      rw [isPc]
      exact .inl complete
    | errorSent => cases complete
    | loopsStarted | initFails | parcelsSent | timesOut | finishFails | panics =>
      exact complete.elim
  | quits isPc | quitPuts isPc =>
    rw [isPc]
    exact .inl complete
  | @stops _ _ result => cases result <;> exact complete.elim
  | startsLoop | skipsLoop | inits | sends | sendsOwn | waits | finishes | fails | loopPanics =>
    exact complete.elim
  | loopStops | loopRounds | arrives | quitter | quitterEnds | quitterPuts => exact .inl complete

/-- A step is initialized at its turn, unless the run fails or is at its end. -/
theorem Does.inited_cases (inited : next.pc.Inited k) (sound : ¬next.pc.Failed) :
    run.pc.Inited k ∨ (run.pc = .initStep k ∧ ∃ parcels, next.pc = .sending k parcels) ∨
      ∃ i, run.pc = .initStep i ∧ run.ctx.mpcSteps[i]? = none := by
  cases does with
  | turns turn =>
    cases turn with
    | loopsStarted => exact absurd inited (Nat.not_lt_zero k)
    | stepsDone isPc isEnd => exact .inr (.inr ⟨_, isPc, isEnd⟩)
    | parcelsSent isPc | timesOut isPc | hasQuit isPc | quitEnds isPc =>
      rw [isPc]
      exact .inl inited
    | errorSent isPc =>
      rw [isPc]
      exact .inl trivial
    | initFails | finishFails | panics => exact absurd trivial sound
  | startsLoop | skipsLoop => exact inited.elim
  | inits isPc =>
    rcases Nat.lt_or_eq_of_le inited with earlier | rfl
    · rw [isPc]
      exact .inl earlier
    · exact .inr (.inl ⟨isPc, _, rfl⟩)
  | sends isPc | sendsOwn isPc | waits isPc | fails isPc | quits isPc | quitPuts isPc =>
    rw [isPc]
    exact .inl inited
  | @stops _ _ result _ isPc =>
    rw [isPc]
    cases result with
    | none => exact .inl inited
    | some => exact absurd trivial sound
  | finishes isPc =>
    rw [isPc]
    exact .inl (Nat.le_of_lt_succ inited)
  | loopPanics => exact absurd trivial sound
  | loopStops | loopRounds | arrives | quitter | quitterEnds | quitterPuts => exact .inl inited

end

/-! ### What one move posts -/

/-- What a move does to the parcels of a run. -/
inductive Posting (kenv : KeyEnv) (run : ContextRun) (action : Action) (next : ContextRun) :
    Prop where
  | keeps (same : next.posted = run.posted)
      (unmade : ∀ i parcels, run.pc = .initStep i → next.pc ≠ .sending i parcels)
  /-- A loop panics while the main process sends. -/
  | crashes (isNext : next.pc = .panicked) (same : next.posted = run.sent)
  | tells (parcel : Parcel) (isError : parcel.msgCode = .mpcError) (failed : next.pc.Failed)
      (more : next.posted = run.posted ++ [parcel])
  | makes {choice : Choice} {i : Nat} {step : Step} {body : StepBody} {peers : List PeerInfo}
      {out : List OutMessage} (isAction : action = .mainMPCProcess choice)
      (isPc : run.pc = .initStep i) (found : run.ctx.mpcSteps[i]? = some step)
      (inits : step.body.initStep kenv.toEnv run.ctx.peers run.ctx.mpcResult choice.random =
        some (.ok (body, peers)))
      (creates : body.createMessage peers = .ok out)
      (isNext : ∃ parcels, next.pc = .sending i parcels) (isPeers : next.ctx.peers = peers)
      (more : next.posted =
        run.posted ++ out.flatMap (parcels run.srv run.ctx.contextID i peers))

theorem Does.posting (does : Does kenv cfg run action next) : Posting kenv run action next := by
  cases does with
  | turns turn =>
    cases turn with
    | loopsStarted isPc | stepsDone isPc | initFails isPc | parcelsSent isPc | timesOut isPc
    | finishFails isPc | errorSent isPc | hasQuit isPc | quitEnds isPc =>
      exact .keeps (by simp [ContextRun.posted, isPc, Pc.pending]) (by simp)
    | panics isPc =>
      rcases isPc with isPc | isPc
      all_goals exact .keeps (by simp [ContextRun.posted, isPc, Pc.pending]) (by simp)
  | startsLoop isPc | skipsLoop isPc | waits isPc | finishes isPc | quits isPc | quitPuts isPc =>
    exact .keeps (by simp [ContextRun.posted, isPc, Pc.pending]) (by simp)
  | @stops _ _ result _ isPc =>
    refine .keeps ?_ (by simp [isPc])
    cases result <;> simp [ContextRun.posted, isPc, Pc.pending, afterWait]
  | inits isPc found inits creates =>
    refine .makes rfl isPc found inits creates ⟨_, rfl⟩ rfl ?_
    simp [ContextRun.posted, isPc, Pc.pending]
  | sends isPc | sendsOwn isPc =>
    exact .keeps (by simp [ContextRun.posted, isPc, Pc.pending]) (by simp [isPc])
  | @fails _ error peerID _ isPc =>
    exact .tells ⟨peerID, .mpcError, ⟨run.ctx.contextID, 0, error.error, [], []⟩⟩ rfl trivial
      (by simp [ContextRun.posted, isPc, Pc.pending])
  | loopPanics => exact .crashes rfl (by simp [ContextRun.posted, panic, Pc.pending])
  | loopStops | loopRounds | arrives | quitter | quitterEnds | quitterPuts =>
    exact .keeps rfl fun i parcels isPc isNext => by cases isPc.symm.trans isNext

/-- A parcel is an old one, an error, or one of a step that has just been initialized. -/
theorem Posting.mem_cases (posting : Posting kenv run action next) (member : parcel ∈ next.posted) :
    parcel ∈ run.posted ∨ (parcel.msgCode = .mpcError ∧ next.pc.Failed) ∨
      ∃ choice i step body peers out, action = .mainMPCProcess choice ∧ run.pc = .initStep i ∧
        run.ctx.mpcSteps[i]? = some step ∧
        step.body.initStep kenv.toEnv run.ctx.peers run.ctx.mpcResult choice.random =
          some (.ok (body, peers)) ∧
        body.createMessage peers = .ok out ∧ next.ctx.peers = peers ∧ next.pc.Inited i ∧
        parcel ∈ out.flatMap (parcels run.srv run.ctx.contextID i peers) := by
  cases posting with
  | keeps same unmade =>
    rw [same] at member
    exact .inl member
  | crashes isNext same =>
    rw [same] at member
    exact .inl (List.mem_append_left _ member)
  | tells parcel isError failed more =>
    rw [more] at member
    rcases List.mem_append.mp member with old | new
    · exact .inl old
    · obtain rfl := List.mem_singleton.mp new
      exact .inr (.inl ⟨isError, failed⟩)
  | makes isAction isPc found inits creates isNext isPeers more =>
    rw [more] at member
    rcases List.mem_append.mp member with old | new
    · exact .inl old
    · obtain ⟨parcels, isNext⟩ := isNext
      exact .inr (.inr ⟨_, _, _, _, _, _, isAction, isPc, found, inits, creates, isPeers,
        by rw [isNext]; exact le_rfl, new⟩)

end ContextRun

/-! ### The parcels of a step -/

/-- The code under which the messages of a step travel. -/
def StepKind.code : StepKind → MsgCode
  | request _ => .requestMPC
  | _ => .mpcMessage

/-- A parcel that the peers of its sender can read. -/
structure Legible (leader : Bool) (contextID : Nat) (parcel : Parcel) : Prop where
  context : parcel.msg.contextID = contextID
  kind : ∃ kind, (gpkKinds leader)[parcel.msg.stepID]? = some kind ∧ parcel.msgCode = kind.code ∧
    kind.reads ≤ parcel.msg.data.length ∧
    ∀ sender, kind.Proper (ContextRun.stepMessage sender parcel.msg)

/-- What a step of a key generation writes, the same step of a peer reads. -/
theorem StepBody.createMessage_legible (isKind : body.kind ∈ gpkKinds leader)
    (created : body.createMessage peers = .ok out) :
    ∀ item ∈ out, item.msgCode = body.kind.code ∧ body.kind.reads ≤ item.data.length ∧
      (∀ preValueKeys resultKeys, body.kind = .gpk preValueKeys resultKeys →
        item.data.length = 2) := by
  cases body with
  | request req =>
    obtain ⟨item, rfl, isCode, -⟩ := RequestMpcStep.createMessage_eq_ok created
    simp [isCode, kind, StepKind.code, StepKind.reads]
  | ackMpc | ready | getReady | ackGPK =>
    cases created
    simp [kind, StepKind.code, StepKind.reads, AckMpcGPKStep.createMessage]
  | skShare poly =>
    intro item member
    have items := RandomPolynomialValue.createMessage_eq_ok created
    obtain ⟨i, inside, rfl⟩ := List.getElem_of_mem member
    obtain ⟨value, -, isItem⟩ := (List.forall₂_iff_get.mp items).2 i
      (by rw [items.length_eq]; exact inside) inside
    rw [List.get_eq_getElem] at isItem
    simp [isItem, kind, StepKind.code, StepKind.reads]
  | gpk ptStep =>
    have single : ptStep.messages.length = 1 := by
      have keys : (StepBody.gpk ptStep).kind = .gpk [.mpcPublicShare] [.publicKeyResult] := by
        cases leader <;> simpa [gpkKinds, kind] using isKind
      have length := congrArg List.length (StepKind.gpk.inj keys).1
      simpa using length
    obtain ⟨pointer, isPointer⟩ := List.length_eq_one_iff.mp single
    cases created
    simp [MpcPointStep.createMessage, isPointer, kind, StepKind.code, StepKind.reads]
  | rskShare | r | s | ackRS => cases leader <;> simp [gpkKinds, kind] at isKind

theorem content_of_parcels {item : OutMessage}
    (member : parcel ∈ ContextRun.parcels srv contextID i peers item) :
    parcel.msg = ⟨contextID, i, (item.peers.map srv.setMessagePeers).getD [], item.data,
      item.bytesData⟩ := by
  unfold ContextRun.parcels at member
  split at member
  · obtain rfl := List.mem_singleton.mp member
    rfl
  · obtain ⟨_, -, rfl⟩ := List.mem_map.mp member
    rfl

theorem legible_of_makes (isKind : (gpkKinds leader)[i]? = some body.kind)
    (created : body.createMessage peers = .ok out)
    (member : parcel ∈ out.flatMap (ContextRun.parcels srv contextID i peers)) :
    Legible leader contextID parcel := by
  obtain ⟨item, inOut, isParcel⟩ := List.mem_flatMap.mp member
  obtain ⟨isCode, enough, two⟩ :=
    StepBody.createMessage_legible (List.mem_of_getElem? isKind) created item inOut
  have content := content_of_parcels isParcel
  refine ⟨by rw [content], body.kind, ?_, ?_, ?_, fun sender => ?_⟩
  · rw [content]
    exact isKind
  · rw [msgCode_of_parcels isParcel, isCode]
  · rw [content]
    exact enough
  · -- only the length of the data is looked at
    rw [content]
    cases same : body.kind with
    | gpk preValueKeys resultKeys => exact two _ _ same
    | r | s =>
      rw [same] at isKind
      have listed := List.mem_of_getElem? isKind
      cases leader <;> simp [gpkKinds] at listed
    | request | ackMpc | ready | getReady | skShare | rskShare | ackGPK | ackRS => trivial

theorem receivers_makes (isKind : body.kind ∈ gpkKinds leader)
    (created : body.createMessage peers = .ok out) :
    (out.flatMap (ContextRun.parcels srv contextID i peers)).map Parcel.receiver =
      if body.kind = .getReady then [] else peers.map PeerInfo.peerID := by
  cases body with
  | request req =>
    obtain ⟨item, rfl, -, toAll⟩ := RequestMpcStep.createMessage_eq_ok created
    simp [ContextRun.parcels, toAll, StepBody.kind, Function.comp_def]
  | skShare poly => exact receivers_shares created
  | getReady =>
    cases created
    rfl
  | ackMpc | ready | gpk | ackGPK =>
    cases created
    simp [ContextRun.parcels, StepBody.kind, MpcPointStep.createMessage,
      AckMpcGPKStep.createMessage, Function.comp_def]
  | rskShare | r | s | ackRS => cases leader <;> simp [gpkKinds, StepBody.kind] at isKind

/-- The parcels that a step has made. -/
def mailOf (k : Nat) (parcels : List Parcel) : List Parcel :=
  parcels.filter fun parcel => parcel.msgCode ≠ .mpcError ∧ parcel.msg.stepID = k

theorem mem_mailOf {k : Nat} {parcels : List Parcel} :
    parcel ∈ mailOf k parcels ↔
      parcel ∈ parcels ∧ parcel.msgCode ≠ .mpcError ∧ parcel.msg.stepID = k := by
  simp [mailOf]

theorem mailOf_append (k : Nat) (parcels more : List Parcel) :
    mailOf k (parcels ++ more) = mailOf k parcels ++ mailOf k more := List.filter_append ..

namespace ContextRun

/-- Whom the parcels of step `k` go to. -/
structure Mailing (leader : Bool) (k : Nat) (run : ContextRun) : Prop where
  early : ¬run.pc.Inited k → mailOf k run.posted = []
  once : ((mailOf k run.posted).map Parcel.receiver).Sublist (run.ctx.peers.map PeerInfo.peerID)
  each : ∀ kind, (gpkKinds leader)[k]? = some kind → kind ≠ .getReady → run.pc.Inited k →
    ¬run.pc.Failed →
    (mailOf k run.posted).map Parcel.receiver = run.ctx.peers.map PeerInfo.peerID

variable {kenv : KeyEnv} {cfg : Config} {run next : ContextRun} {action : Action} {k : Nat}
  {leader : Bool}

section

variable (does : Does kenv cfg run action next)

include does

theorem Does.peerIDs (permits : run.Permits (fun _ _ => True) action) :
    next.ctx.peers.map PeerInfo.peerID = run.ctx.peers.map PeerInfo.peerID := by
  cases does with
  | inits isPc found inits =>
    simp only [Permits, isPc] at permits
    exact StepBody.initStep_peerIDs inits
  | _ => rfl

theorem Does.kinds :
    (next.ctx.mpcSteps.map Step.body).map StepBody.kind =
      (run.ctx.mpcSteps.map Step.body).map StepBody.kind := by
  apply List.ext_getElem?
  intro i
  simp only [List.getElem?_map]
  cases here : next.ctx.mpcSteps[i]? with
  | none =>
    have outside := List.getElem?_eq_none_iff.mp here
    rw [does.length] at outside
    rw [List.getElem?_eq_none_iff.mpr outside]
  | some after =>
    obtain ⟨before, found, becomes⟩ := does.becomes here
    simp [found, becomes.kind]

theorem Does.mailing (permits : run.Permits (fun _ _ => True) action)
    (kinds : (run.ctx.mpcSteps.map Step.body).map StepBody.kind = gpkKinds leader)
    (mailing : run.Mailing leader k) : next.Mailing leader k := by
  have ids := does.peerIDs permits
  -- the step has been initialized before, unless this move does it
  have before {kind : StepKind} (isKind : (gpkKinds leader)[k]? = some kind)
      (unmade : ∀ parcels, run.pc = .initStep k → next.pc ≠ .sending k parcels)
      (inited : next.pc.Inited k) (sound : ¬next.pc.Failed) : run.pc.Inited k := by
    rcases does.inited_cases inited sound with was | ⟨isPc, parcels, isNext⟩ | ⟨i, isPc, isEnd⟩
    · exact was
    · exact absurd isNext (unmade parcels isPc)
    · have inside : k < 5 := by simpa using (List.getElem?_eq_some_iff.mp isKind).1
      have length := congrArg List.length kinds
      have outside := List.getElem?_eq_none_iff.mp isEnd
      simp only [List.length_map, length_gpkKinds] at length
      rw [isPc]
      exact Nat.lt_of_lt_of_le inside (length ▸ outside)
  -- by what the move does to the parcels: nothing, a crash, an error message, or a new step
  cases does.posting with
  | keeps same unmade =>
    refine ⟨fun early => ?_, ?_, fun kind isKind speaks inited sound => ?_⟩
    · rw [same]
      exact mailing.early fun was => early (does.inited was)
    · rw [same, ids]
      exact mailing.once
    · rw [same, ids]
      exact mailing.each kind isKind speaks (before isKind (unmade k) inited sound)
        fun failed => sound (does.failed failed)
  | crashes isNext same =>
    refine ⟨fun early => ?_, ?_, fun kind isKind speaks inited sound => ?_⟩
    · rw [isNext] at early
      exact absurd trivial early
    · -- what was still to be sent is lost
      have fewer : (mailOf k run.sent).Sublist (mailOf k run.posted) :=
        (List.sublist_append_left _ _).filter _
      rw [same, ids]
      exact (fewer.map _).trans mailing.once
    · rw [isNext] at sound
      exact absurd trivial sound
  | tells parcel isError failed more =>
    have same : mailOf k next.posted = mailOf k run.posted := by
      have none : mailOf k [parcel] = [] := by simp [mailOf, isError]
      rw [more, mailOf_append, none, List.append_nil]
    refine ⟨fun early => ?_, ?_, fun kind isKind speaks inited sound => absurd failed sound⟩
    · rw [same]
      exact mailing.early fun was => early (does.inited was)
    · rw [same, ids]
      exact mailing.once
  | @makes choice i step body peers out isAction isPc found inits creates isNext isPeers more =>
    obtain ⟨parcels, isNext⟩ := isNext
    have isKind : (gpkKinds leader)[i]? = some body.kind := by
      rw [← kinds, List.getElem?_map, List.getElem?_map, found, StepBody.initStep_kind inits]
      rfl
    have codes (parcel : Parcel)
        (member : parcel ∈ out.flatMap (ContextRun.parcels run.srv run.ctx.contextID i peers)) :
        parcel.msgCode ≠ .mpcError ∧ parcel.msg.stepID = i := by
      obtain ⟨-, kind, -, isCode, -⟩ := legible_of_makes isKind creates member
      refine ⟨?_, stepID_of_flatMap member⟩
      rw [isCode]
      cases kind <;> simp [StepKind.code]
    by_cases here : i = k
    · -- the step itself: it has made nothing before, and now makes everything
      subst here
      have nothing : mailOf i run.posted = [] := mailing.early (by rw [isPc]; exact lt_irrefl i)
      have all : mailOf i next.posted =
          out.flatMap (ContextRun.parcels run.srv run.ctx.contextID i peers) := by
        rw [more, mailOf_append, nothing, List.nil_append, mailOf, List.filter_eq_self]
        intro parcel member
        simpa using codes parcel member
      have receivers : (mailOf i next.posted).map Parcel.receiver =
          if body.kind = .getReady then [] else peers.map PeerInfo.peerID := by
        rw [all]
        exact receivers_makes (List.mem_of_getElem? isKind) creates
      refine ⟨fun early => ?_, ?_, fun kind isKind' speaks _ _ => ?_⟩
      · rw [isNext] at early
        exact absurd le_rfl early
      · rw [receivers, isPeers]
        split
        · exact List.nil_sublist _
        · exact List.Sublist.refl _
      · rw [receivers, if_neg, isPeers]
        rw [Option.some.inj (isKind.symm.trans isKind')]
        exact speaks
    -- another step: its parcels are not counted here
    · have none : mailOf k
          (out.flatMap (ContextRun.parcels run.srv run.ctx.contextID i peers)) = [] := by
        rw [mailOf, List.filter_eq_nil_iff]
        intro parcel member
        simp [(codes parcel member).2, here]
      have same : mailOf k next.posted = mailOf k run.posted := by
        rw [more, mailOf_append, none, List.append_nil]
      refine ⟨fun early => ?_, ?_, fun kind isKind' speaks inited sound => ?_⟩
      · rw [same]
        exact mailing.early fun was => early (does.inited was)
      · rw [same, ids]
        exact mailing.once
      · rw [same, ids]
        refine mailing.each kind isKind' speaks (before isKind' (fun _ isPc' => ?_) inited sound)
          fun failed => sound (does.failed failed)
        rw [isPc] at isPc'
        exact absurd (Pc.initStep.inj isPc') here

end

theorem mailing_start : (start srv ctx).Mailing leader k := by
  have nothing : (start srv ctx).posted = [] := rfl
  refine ⟨fun _ => by rw [nothing]; rfl, ?_, fun _ _ _ inited => inited.elim⟩
  rw [nothing]
  exact List.nil_sublist _

theorem Does.sent_inited (does : Does kenv cfg run action next)
    (inited : run.sent ≠ [] → run.pc.Inited 0) : next.sent ≠ [] → next.pc.Inited 0 := by
  intro some
  have stays (was : run.sent ≠ []) : next.pc.Inited 0 := does.inited (inited was)
  cases does with
  | sends | sendsOwn => exact Nat.zero_le _
  | fails => trivial
  | turns | startsLoop | skipsLoop | inits | waits | stops | finishes | quits | quitPuts
  | loopStops | loopRounds | loopPanics | arrives | quitter | quitterEnds | quitterPuts =>
    exact stays some

theorem Does.complete_down (does : Does kenv cfg run action next) (gates : ∀ k, run.Gate k)
    (down : run.pc.Complete → ∀ step ∈ run.ctx.mpcSteps, step.waiting ≤ 0) :
    next.pc.Complete → ∀ step ∈ next.ctx.mpcSteps, step.waiting ≤ 0 := by
  intro complete step' member
  obtain ⟨k, here⟩ := List.getElem?_of_mem member
  refine does.stays_down (fun step found => ?_) step' here
  rcases does.complete_cases complete with was | ⟨i, isPc, isEnd⟩
  · exact down was step (List.mem_of_getElem? found)
  · -- behind the last step, every one has been passed
    have inside := (List.getElem?_eq_some_iff.mp found).1
    have outside := List.getElem?_eq_none_iff.mp isEnd
    refine (gates k).passed (.inl ?_) step found
    rw [isPc]
    exact Nat.lt_of_lt_of_le inside outside

/-- What the parcels of a run say. -/
structure Content (leader : Bool) (srv : MpcDistributor) (run : ContextRun) : Prop where
  server : ∃ keyStore, run.srv = { srv with keyStore }
  legible : ∀ parcel ∈ run.posted, parcel.msgCode ≠ .mpcError →
    Legible leader run.ctx.contextID parcel
  errors : ∀ parcel ∈ run.posted, parcel.msgCode = .mpcError → run.pc.Failed
  requests : ∀ parcel ∈ run.posted, parcel.msgCode = .requestMPC → run.pc.Inited 0 ∧
    SeedsDrawn run.ctx.peers ∧
      parcel.msg = ⟨run.ctx.contextID, 0, srv.setMessagePeers run.ctx.peers,
      [CtxType.mpcGPKLeader.code, 0], []⟩

theorem request_content {req : RequestMpcStep} (leads : req.messageType = .mpcGPKLeader)
    (created : (StepBody.request req).createMessage peers = .ok out)
    (member : parcel ∈ out.flatMap (parcels srv contextID 0 peers)) :
    parcel.msg = ⟨contextID, 0, srv.setMessagePeers peers, [CtxType.mpcGPKLeader.code, 0], []⟩ := by
  simp only [StepBody.createMessage, RequestMpcStep.createMessage, leads] at created
  cases created
  obtain ⟨item, inOut, isParcel⟩ := List.mem_flatMap.mp member
  obtain rfl := List.mem_singleton.mp inOut
  rw [content_of_parcels isParcel]
  rfl

theorem Does.content (does : Does kenv cfg run action next)
    (permits : run.Permits (fun _ _ => True) action)
    (kinds : (run.ctx.mpcSteps.map Step.body).map StepBody.kind = gpkKinds leader)
    (content : run.Content leader srv) : next.Content leader srv := by
  obtain ⟨keyStore, isServer⟩ := content.server
  have kindOf {i : Nat} {step : Step} {body : StepBody} {peers : List PeerInfo}
      {random : Randomness}
      (found : run.ctx.mpcSteps[i]? = some step)
      (inits : step.body.initStep kenv.toEnv run.ctx.peers run.ctx.mpcResult random =
        some (.ok (body, peers))) : (gpkKinds leader)[i]? = some body.kind := by
    rw [← kinds, List.getElem?_map, List.getElem?_map, found, StepBody.initStep_kind inits]
    rfl
  refine ⟨?_, fun parcel member speaks => ?_, fun parcel member isError => ?_,
    fun parcel member asks => ?_⟩
  -- FinishStep changes the key store of the server, nothing else does
  · cases does with
    | finishes isPc found finishes =>
      obtain ⟨keyStore', rfl⟩ := StepBody.finish_srv finishes
      exact ⟨keyStore', by rw [isServer]⟩
    | _ => exact ⟨keyStore, isServer⟩
  · rw [does.contextID]
    rcases does.posting.mem_cases member with old | ⟨isError, -⟩ |
      ⟨choice, i, step, body, peers, out, -, isPc, found, inits, creates, -, -, new⟩
    · exact content.legible parcel old speaks
    · exact absurd isError speaks
    · exact legible_of_makes (kindOf found inits) creates new
  · rcases does.posting.mem_cases member with old | ⟨-, failed⟩ |
      ⟨choice, i, step, body, peers, out, -, isPc, found, inits, creates, -, -, new⟩
    · exact does.failed (content.errors parcel old isError)
    · exact failed
    -- no step makes an error message
    · obtain ⟨-, kind, -, isCode, -⟩ := legible_of_makes (kindOf found inits) creates new
      rw [isError] at isCode
      cases kind <;> cases isCode
  · rcases does.posting.mem_cases member with old | ⟨isError, -⟩ |
      ⟨choice, i, step, body, peers, out, -, isPc, found, inits, creates, isPeers, inited, new⟩
    · obtain ⟨inited, seeded, isMsg⟩ := content.requests parcel old asks
      rw [does.contextID, does.peers (drawn_of_inited kinds inited)]
      exact ⟨does.inited inited, seeded, isMsg⟩
    · cases asks.symm.trans isError
    · have isKind := kindOf found inits
      obtain ⟨-, kind, isKind', isCode, -⟩ := legible_of_makes isKind creates new
      -- only the step of the request makes requests
      rw [stepID_of_flatMap new, isKind] at isKind'
      cases isKind'
      obtain ⟨req, rfl⟩ : ∃ req, body = .request req := by
        cases body with
        | request req => exact ⟨req, rfl⟩
        | _ => cases asks.symm.trans isCode
      obtain rfl := (gpkKinds_index isKind).2 _ rfl
      have leads : req.messageType = .mpcGPKLeader := by
        cases leader with
        | true => exact (StepKind.request.inj (Option.some.inj isKind)).symm
        | false => cases isKind
      refine ⟨inited, ?_, ?_⟩
      · have changed := StepBody.initStep_peers inits
        rw [← StepBody.initStep_kind inits, StepBody.kind, leads, if_pos rfl] at changed
        exact isPeers ▸ changed.2
      · rw [request_content leads creates new, does.contextID, isPeers, isServer]
        rfl

theorem content_start : (start srv ctx).Content leader srv := by
  have nothing : (start srv ctx).posted = [] := rfl
  exact ⟨⟨srv.keyStore, rfl⟩, by simp [nothing], by simp [nothing], by simp [nothing]⟩

end ContextRun

/-! ### Whole runs -/

/-- How many messages each step waits for. -/
def gpkWaits (leader : Bool) (peers : Nat) : List Int :=
  (if leader then [(peers : Int) - 1, 0] else [0, 1]) ++ [(peers : Int), peers, peers]

section Runs

variable {kenv : KeyEnv} {cfg : Config} {leader : Bool} {mpcID : Nat} {peers : List PeerInfo}
  {srv : MpcDistributor} {ctx : MpcContext} {heard : List (NodeID × MpcMessage)} {run : ContextRun}
  (created : createContext cfg (if leader then .mpcGPKLeader else .mpcGPKPeer) mpcID peers [] =
    .ok ctx)

include created

theorem createContext_waits (nonempty : peers ≠ []) :
    ctx.mpcSteps.map Step.waiting = gpkWaits leader peers.length ∧
      ctx.mpcSteps.map Step.stepId = List.range 5 := by
  obtain ⟨poly, -, rfl⟩ := createContext_gpkSteps leader created
  cases leader with
  | true =>
    refine ⟨?_, rfl⟩
    simp [gpkSteps, gpkStep, Step.create, gpkWaits, nonempty]
  | false => exact ⟨rfl, rfl⟩

/-- What a run of a key generation keeps. -/
structure ContextRun.Keeps (leader : Bool) (srv : MpcDistributor) (ctx : MpcContext)
    (run : ContextRun) : Prop where
  kinds : (run.ctx.mpcSteps.map Step.body).map StepBody.kind = gpkKinds leader
  contextID : run.ctx.contextID = ctx.contextID
  ids : run.ctx.peers.map PeerInfo.peerID = ctx.peers.map PeerInfo.peerID
  gate : ∀ k, run.Gate k
  mailing : ∀ k, run.Mailing leader k
  content : run.Content leader srv
  inited : run.sent ≠ [] → run.pc.Inited 0
  down : run.pc.Complete → ∀ step ∈ run.ctx.mpcSteps, step.waiting ≤ 0

theorem ContextRun.Runs.keeps
    (runs : ContextRun.Runs kenv cfg ContextRun.Prompt (.start srv ctx) heard run) :
    run.Keeps leader srv ctx := by
  have start := createContext_gpkStart created
  have unused := unused_of_createContext created
  refine runs.invariant (fun _ run => run.Keeps leader srv ctx) ?_ ?_
  · exact ⟨start.kinds, rfl, rfl,
      fun k => gate_start k fun step member => (unused step member).finish, fun k => mailing_start,
      content_start, fun some => absurd rfl some, fun complete => complete.elim⟩
  · intro heard run action next before keeps permits prompt does
    exact ⟨does.kinds.trans keeps.kinds, does.contextID.trans keeps.contextID,
      (does.peerIDs permits).trans keeps.ids, fun k => does.gate (prompt.punctual k) (keeps.gate k),
      fun k => does.mailing permits keeps.kinds (keeps.mailing k),
      does.content permits keeps.kinds keeps.content, does.sent_inited keeps.inited,
      does.complete_down keeps.gate keeps.down⟩

end Runs
end SchnorrMpc
