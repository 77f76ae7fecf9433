import SchnorrMpc.Lib.Mailbox
import SchnorrMpc.Mpc.Transitions
import SchnorrMpc.Properties.KeyFiles

/-!
# Room in the channels

The channels of a step have room for one message of every peer and for what the
context itself has to put there. Messages that come when no loop reads them any
more stay, so they are what can fill a channel for good.
-/
namespace SchnorrMpc

open Lib

variable {result : Option Err} {list : List PeerInfo} {step' step firstStep readyStep : Step}
  {sends contextID i mpcID : Nat} {pc pc' : Pc} {choice : Choice} {action : Action}
  {srv : MpcDistributor} {out : List OutMessage} {cfg : Config} {mpc ctx : MpcContext}
  {ctxType : CtxType} {preSetValue : List MpcValue}

/-- The messages that the loop of the step is not going to take. -/
def Step.unread (step : Step) : List StepMessage := Mailbox.unread step.looping step.msgChan

/-- A send waits for good: the channel is full, and no loop takes anything from it. -/
def Step.Clogged (peers : List PeerInfo) (step : Step) : Prop :=
  step.capacity ≤ step.msgChan.length ∧
    (step.looping = false ∨ step.handleMessage peers = none)

namespace ContextRun

/-- The main process or a `quit` is about to put something on the message channel of a step. -/
inductive PutsMessage (run : ContextRun) : Nat → Prop where
  | own {i : Nat} {parcel : Parcel} {rest : List Parcel}
      (isPc : run.pc = .sending i (parcel :: rest)) (own : run.Own parcel) :
      PutsMessage run parcel.msg.stepID
  | stop {i : Nat} {result : Option Err} (isPc : run.pc = .stopping i result) : PutsMessage run i
  | quit {i : Nat} {result : Option Err} (isPc : run.pc = .quitting result (2 * i)) :
      PutsMessage run i
  | quitter {i : Nat} {error : Err} (isQuitter : run.quitter = some (error, 2 * i)) :
      PutsMessage run i

/-- The same for the channel to the main process. -/
inductive PutsFinish (run : ContextRun) : Nat → Prop where
  | loop {i : Nat} (isPc : run.pc = .initMessageLoop i) : PutsFinish run i
  | quit {i : Nat} {result : Option Err} (isPc : run.pc = .quitting result (2 * i + 1)) :
      PutsFinish run i
  | quitter {i : Nat} {error : Err} (isQuitter : run.quitter = some (error, 2 * i + 1)) :
      PutsFinish run i

/-- The main process or a `quit` waits for good. -/
def Wedged (run : ContextRun) : Prop :=
  ∃ i step, run.ctx.mpcSteps[i]? = some step ∧
    (run.PutsMessage i ∧ step.Clogged run.ctx.peers ∨ run.PutsFinish i ∧ 3 ≤ step.finish.length)

/-- A message that arrives finds fewer unread messages than there are peers. -/
def Modest (run : ContextRun) : Action → Prop
  | .getMessage _ msg => ∀ step, run.ctx.mpcSteps[msg.stepID]? = some step →
      step.unread.length < run.ctx.peers.length
  | _ => True

instance (run : ContextRun) (action : Action) : Decidable (run.Modest action) :=
  match action with
  | .getMessage _ msg =>
    match found : run.ctx.mpcSteps[msg.stepID]? with
    | some step => decidable_of_iff (step.unread.length < run.ctx.peers.length)
        (by simp [Modest, found])
    | none => isTrue (by simp [Modest, found])
  | .mainMPCProcess _ | .messageLoop _ | .quitMpcContext _ | .quitterSend => isTrue trivial

end ContextRun

/-! ### What the context itself puts on the channels -/

/-- The parcels that the node gets from itself. -/
def ownParcels (self : NodeID) (parcels : List Parcel) : Nat :=
  parcels.countP fun parcel => parcel.receiver = self ∧ parcel.msgCode = .mpcMessage

/-- What has been put on the channels of one step at most: messages of the node itself, the nil of
`FinishStep`, the nil and the result of `quit`. `begun` is for `InitMessageLoop`. -/
structure Dues where
  own : Nat
  stops : Nat
  quits : Nat
  results : Nat
  begun : Bool

structure Dues.Le (a b : Dues) : Prop where
  own : a.own ≤ b.own
  stops : a.stops ≤ b.stops
  quits : a.quits ≤ b.quits
  results : a.results ≤ b.results
  begun : a.begun = true → b.begun = true

def Pc.own (self : NodeID) (i : Nat) : Pc → Nat
  | .initMessageLoop _ => 0
  | .initStep k => if i < k then 1 else 0
  | .sending k parcels => if i < k then 1 else if i = k then 1 - ownParcels self parcels else 0
  | .waiting k | .stopping k _ | .finishStep k => if i ≤ k then 1 else 0
  | .failing _ _ | .quit _ | .quitting _ _ | .returned _ | .panicked => 1

def Pc.stops (i : Nat) : Pc → Nat
  | .initMessageLoop _ => 0
  | .initStep k | .sending k _ | .waiting k | .stopping k _ => if i < k then 1 else 0
  | .finishStep k => if i ≤ k then 1 else 0
  | .failing _ _ | .quit _ | .quitting _ _ | .returned _ | .panicked => 1

def Pc.begun (i : Nat) : Pc → Bool
  | .initMessageLoop k => decide (i < k)
  | _ => true

/-- Whether `quit` has done its send of this number. -/
def quitSent (bQuit : Bool) (quitter : Option (Err × Nat)) (number : Nat) (pc : Pc) : Nat :=
  match bQuit, quitter, pc with
  | false, _, _ => 0
  | true, some (_, sends), _ => if number < sends then 1 else 0
  | true, none, .quitting _ sends => if number < sends then 1 else 0
  | true, none, _ => 1

def ContextRun.dues (run : ContextRun) (i : Nat) : Dues where
  own := run.pc.own run.srv.self i
  stops := run.pc.stops i
  quits := quitSent run.ctx.bQuit run.quitter (2 * i) run.pc
  results := quitSent run.ctx.bQuit run.quitter (2 * i + 1) run.pc
  begun := run.pc.begun i

/-- The channels of a step hold no more than the dues and the messages of the peers. -/
structure Step.Roomy (peers : Nat) (dues : Dues) (step : Step) : Prop where
  capacity : step.capacity = peers + 3
  unread : step.unread.length ≤ peers + dues.own
  marks : step.msgChan.countP Option.isNone ≤ dues.stops + dues.quits
  finish : step.finish.length ≤
    (if dues.begun = true ∧ step.waiting ≤ 0 then 1 else 0) + dues.results
  begun : step.looping = true → dues.begun = true

namespace Step.Roomy

variable {peers : Nat} {dues more : Dues} {step : Step}

section

variable (roomy : step.Roomy peers dues)

include roomy

theorem mono (le : dues.Le more) : step.Roomy peers more := by
  refine ⟨roomy.capacity, roomy.unread.trans (by have := le.own; omega), ?_, ?_,
    fun loops => le.begun (roomy.begun loops)⟩
  · have := roomy.marks
    have := le.stops
    have := le.quits
    omega
  · refine roomy.finish.trans (Nat.add_le_add ?_ le.results)
    split
    next told => rw [if_pos ⟨le.begun told.1, told.2⟩]
    next => exact Nat.zero_le _

theorem put (le : dues.Le more) (msg : StepMessage)
    (unread : step.unread.length + 1 ≤ peers + more.own) :
    ({ step with msgChan := step.msgChan ++ [some msg] } : Step).Roomy peers more := by
  have before := roomy.mono le
  refine ⟨before.capacity, ?_, ?_, before.finish, before.begun⟩
  · exact (Mailbox.length_unread_put step.looping step.msgChan msg).trans unread
  · simpa using before.marks

theorem stop (le : dues.Le more) (counted : dues.stops + dues.quits + 1 ≤ more.stops + more.quits) :
    ({ step with msgChan := step.msgChan ++ [none] } : Step).Roomy peers more := by
  have before := roomy.mono le
  refine ⟨before.capacity, ?_, ?_, before.finish, before.begun⟩
  · rw [Step.unread, Mailbox.unread_stop]
    exact before.unread
  · have := roomy.marks
    simp only [List.countP_append, List.countP_singleton, Option.isNone_none, if_true]
    omega

theorem tell (le : dues.Le more) (result : Option Err)
    (counted : (if dues.begun = true ∧ step.waiting ≤ 0 then 1 else 0) + dues.results + 1 ≤
      (if more.begun = true ∧ step.waiting ≤ 0 then 1 else 0) + more.results) :
    ({ step with finish := step.finish ++ [result] } : Step).Roomy peers more := by
  have before := roomy.mono le
  refine ⟨before.capacity, before.unread, before.marks, ?_, before.begun⟩
  have := roomy.finish
  simp only [List.length_append, List.length_singleton]
  omega

theorem take (le : dues.Le more) {finish : List (Option Err)}
    (head : step.finish = result :: finish) : ({ step with finish } : Step).Roomy peers more := by
  have before := roomy.mono le
  refine ⟨before.capacity, before.unread, before.marks, ?_, before.begun⟩
  have := before.finish
  rw [head, List.length_cons] at this
  simp only
  omega

theorem round {msg : StepMessage} {rest : List (Option StepMessage)} (loops : step.looping = true)
    (head : step.msgChan = some msg :: rest) (round : Step.Round list step msg rest step') :
    step'.Roomy peers dues := by
  have unread : (Mailbox.unread step.looping rest).length ≤ peers + dues.own := by
    have := roomy.unread
    rwa [Step.unread, loops, head, Mailbox.unread_take, ← loops] at this
  have marks : rest.countP Option.isNone ≤ dues.stops + dues.quits := by
    have := roomy.marks
    rwa [head, List.countP_cons_of_neg (by simp)] at this
  have finish := roomy.finish
  cases round with
  | ignored | refused => exact ⟨roomy.capacity, unread, marks, finish, roomy.begun⟩
  | accepted same waits handled =>
    refine ⟨roomy.capacity, unread, marks, ?_, roomy.begun⟩
    rw [if_neg (by omega)] at finish
    simp only
    omega
  | last same waits room handled =>
    refine ⟨roomy.capacity, unread, marks, ?_, roomy.begun⟩
    rw [if_neg (by omega)] at finish
    rw [if_pos ⟨roomy.begun loops, le_rfl⟩, List.length_append, List.length_singleton]
    omega

theorem quitPut (le : dues.Le more) (put : step.QuitPut result sends step')
    (message : sends % 2 = 0 → dues.quits = 0 ∧ more.quits = 1)
    (told : sends % 2 = 1 → dues.results = 0 ∧ more.results = 1) : step'.Roomy peers more := by
  cases put with
  | message even room =>
    refine roomy.stop le ?_
    have := message even
    have := le.stops
    omega
  | finish odd room =>
    refine roomy.tell le result ?_
    have := told odd
    have mono : (if dues.begun = true ∧ step.waiting ≤ 0 then 1 else 0) ≤
        (if more.begun = true ∧ step.waiting ≤ 0 then 1 else 0) := by
      split
      next held => rw [if_pos ⟨le.begun held.1, held.2⟩]
      next => exact Nat.zero_le _
    omega

end

end Step.Roomy

/-! ### Runs -/

/-- What the main process owes can only grow on the way from one place to another. -/
structure Pc.Le (node : NodeID) (pc pc' : Pc) : Prop where
  own : ∀ i, pc.own node i ≤ pc'.own node i
  stops : ∀ i, pc.stops i ≤ pc'.stops i
  begun : ∀ i, pc.begun i = true → pc'.begun i = true

theorem Pc.own_le_one (self : NodeID) (i : Nat) (pc : Pc) : pc.own self i ≤ 1 := by
  unfold Pc.own
  split <;> repeat' split
  all_goals omega

theorem Pc.stops_le_one (i : Nat) (pc : Pc) : pc.stops i ≤ 1 := by
  unfold Pc.stops
  split <;> repeat' split
  all_goals omega

theorem Pc.le_of_end {self : NodeID} (own : ∀ i, pc'.own self i = 1) (stops : ∀ i, pc'.stops i = 1)
    (begun : ∀ i, pc'.begun i = true) : Pc.Le self pc pc' :=
  ⟨fun i => (own i).symm ▸ pc.own_le_one self i, fun i => (stops i).symm ▸ pc.stops_le_one i,
    fun i _ => begun i⟩

section

variable (node : NodeID) (i : Nat)

theorem Pc.le_loop : Pc.Le node (.initMessageLoop i) (.initMessageLoop (i + 1)) := by
  refine ⟨by simp [Pc.own], by simp [Pc.stops], fun j => ?_⟩
  simp only [Pc.begun, decide_eq_true_eq]
  omega

theorem Pc.le_inits (parcels : List Parcel) : Pc.Le node (.initStep i) (.sending i parcels) := by
  refine ⟨fun j => ?_, by simp [Pc.stops], by simp [Pc.begun]⟩
  simp only [Pc.own]
  repeat' split
  all_goals omega

theorem Pc.le_sends (parcel : Parcel) (rest : List Parcel) :
    Pc.Le node (.sending i (parcel :: rest)) (.sending i rest) := by
  refine ⟨fun j => ?_, by simp [Pc.stops], by simp [Pc.begun]⟩
  have fewer : ownParcels node rest ≤ ownParcels node (parcel :: rest) :=
    List.Sublist.countP_le (List.sublist_cons_self parcel rest)
  simp only [Pc.own]
  repeat' split
  all_goals omega

theorem Pc.le_waits (result : Option Err) : Pc.Le node (.waiting i) (.stopping i result) :=
  ⟨by simp [Pc.own], by simp [Pc.stops], by simp [Pc.begun]⟩

theorem Pc.le_stops (run : ContextRun) (result : Option Err) :
    Pc.Le node (.stopping i result) (run.afterWait i result) := by
  cases result with
  | none =>
    refine ⟨by simp [Pc.own, ContextRun.afterWait], fun j => ?_,
      by simp [Pc.begun, ContextRun.afterWait]⟩
    simp only [Pc.stops, ContextRun.afterWait]
    repeat' split
    all_goals omega
  | some error => exact Pc.le_of_end (fun _ => rfl) (fun _ => rfl) (fun _ => rfl)

theorem Pc.le_finishes : Pc.Le node (.finishStep i) (.initStep (i + 1)) := by
  refine ⟨fun j => ?_, fun j => ?_, by simp [Pc.begun]⟩
  all_goals
    simp only [Pc.own, Pc.stops]
    repeat' split
    all_goals omega

end

theorem quitSent_le_one (bQuit : Bool) (quitter : Option (Err × Nat)) (number : Nat) (pc : Pc) :
    quitSent bQuit quitter number pc ≤ 1 := by
  unfold quitSent
  split <;> repeat' split
  all_goals omega

@[simp] theorem quitSent_quitter (error : Err) (sends number : Nat) (pc : Pc) :
    quitSent true (some (error, sends)) number pc = if number < sends then 1 else 0 := rfl

@[simp] theorem quitSent_quitting (result : Option Err) (sends number : Nat) :
    quitSent true none number (.quitting result sends) = if number < sends then 1 else 0 := rfl

theorem quitSent_free (elsewhere : ∀ result sends, pc ≠ .quitting result sends) (number : Nat) :
    quitSent true none number pc = 1 := by
  unfold quitSent
  split <;> simp_all

theorem quitSent_le (bQuit : Bool) (quitter : Option (Err × Nat)) (number : Nat)
    (leaves : ∀ result sends, pc' ≠ .quitting result sends) :
    quitSent bQuit quitter number pc ≤ quitSent bQuit quitter number pc' := by
  cases bQuit with
  | false => rfl
  | true =>
    cases quitter with
    | some => rfl
    | none =>
      rw [quitSent_free leaves]
      exact quitSent_le_one ..

namespace ContextRun

variable {kenv : KeyEnv} {cfg : Config} {run next : ContextRun}

theorem Turns.le (turn : run.Turns kenv cfg choice pc) :
    Pc.Le run.srv.self run.pc pc ∧ ∀ result sends, pc ≠ .quitting result sends := by
  cases turn with
  | loopsStarted isPc =>
    rw [isPc]
    exact ⟨⟨by simp [Pc.own], by simp [Pc.stops], by simp [Pc.begun]⟩, by simp⟩
  | parcelsSent isPc =>
    rw [isPc]
    refine ⟨⟨fun i => ?_, by simp [Pc.stops], by simp [Pc.begun]⟩, by simp⟩
    simp only [Pc.own, ownParcels, List.countP_nil]
    repeat' split
    all_goals omega
  | timesOut isPc =>
    rw [isPc]
    exact ⟨⟨by simp [Pc.own], by simp [Pc.stops], by simp [Pc.begun]⟩, by simp⟩
  | stepsDone | initFails | finishFails | errorSent | hasQuit | quitEnds | panics =>
    exact ⟨Pc.le_of_end (by simp [Pc.own]) (by simp [Pc.stops]) (by simp [Pc.begun]), by simp⟩

theorem dues_le (le : Pc.Le run.srv.self run.pc pc)
    (leaves : ∀ result sends, pc ≠ .quitting result sends) (i : Nat) :
    (run.dues i).Le ({ run with pc }.dues i) :=
  ⟨le.own i, le.stops i, quitSent_le _ _ _ leaves, quitSent_le _ _ _ leaves, le.begun i⟩

/-- Only one `quit` is at work. -/
structure Locks (run : ContextRun) : Prop where
  quitter : ∀ error sends, run.quitter = some (error, sends) →
    run.ctx.bQuit = true ∧ ∀ result sends, run.pc ≠ .quitting result sends
  quitting : ∀ result sends, run.pc = .quitting result sends →
    run.ctx.bQuit = true ∧ run.quitter = none

theorem Locks.elsewhere (locks : run.Locks) (leaves : ∀ result sends, pc ≠ .quitting result sends)
    (sameLock : next.ctx.bQuit = run.ctx.bQuit ∧ next.quitter = run.quitter) (isPc : next.pc = pc) :
    next.Locks := by
  constructor
  · intro error sends isQuitter
    rw [sameLock.1, isPc]
    exact ⟨(locks.quitter error sends (sameLock.2 ▸ isQuitter)).1, leaves⟩
  · intro result sends quitting
    exact absurd (isPc.symm.trans quitting) (leaves result sends)

theorem Does.locks (does : Does kenv cfg run action next) (locks : run.Locks) : next.Locks := by
  cases does with
  | turns turn => exact locks.elsewhere turn.le.2 ⟨rfl, rfl⟩ rfl
  | startsLoop | skipsLoop | inits | sends | sendsOwn | waits | finishes | fails =>
    exact locks.elsewhere (by simp) ⟨rfl, rfl⟩ rfl
  | @stops _ _ result => exact locks.elsewhere (by cases result <;> simp [afterWait]) ⟨rfl, rfl⟩ rfl
  | loopPanics => exact locks.elsewhere (by simp [panic]) ⟨rfl, rfl⟩ rfl
  | loopStops | loopRounds | arrives => exact ⟨locks.quitter, locks.quitting⟩
  | quits isPc first unlocked =>
    constructor
    · intro error sends isQuitter
      cases unlocked.symm.trans isQuitter
    · intro _ _ _
      exact ⟨rfl, unlocked⟩
  | quitPuts isPc found put =>
    have held := locks.quitting _ _ isPc
    constructor
    · intro error sends isQuitter
      cases held.2.symm.trans isQuitter
    · intro _ _ _
      exact held
  -- below, the lock was taken by another process
  | quitter first =>
    -- the lock was free, so the main process is not in it
    have free (result : Option Err) (sends : Nat) : run.pc ≠ .quitting result sends := by
      intro quitting
      cases first.symm.trans (locks.quitting _ _ quitting).1
    constructor
    · intro error sends _
      exact ⟨rfl, free⟩
    · intro result sends quitting
      exact absurd quitting (free result sends)
  | quitterEnds isQuitter =>
    have held := locks.quitter _ _ isQuitter
    constructor
    · intro error sends gone
      cases gone
    · intro result sends quitting
      exact absurd quitting (held.2 result sends)
  | quitterPuts isQuitter found put =>
    have held := locks.quitter _ _ isQuitter
    constructor
    · intro error sends _
      exact held
    · intro result sends quitting
      exact absurd quitting (held.2 result sends)

/-- The parcels of a step in the making. -/
structure Posts (run : ContextRun) : Prop where
  named : (run.ctx.peers.map PeerInfo.peerID).count run.srv.self ≤ 1
  addressed : run.Addressed
  own : ∀ i parcels, run.pc = .sending i parcels → ownParcels run.srv.self parcels ≤ 1

end ContextRun

theorem ownParcels_le_count (self : NodeID) (parcels : List Parcel) :
    ownParcels self parcels ≤ (parcels.map Parcel.receiver).count self := by
  unfold ownParcels
  rw [List.count, List.countP_map]
  refine List.countP_mono_left fun parcel _ own => ?_
  simp only [decide_eq_true_eq] at own
  simp [own.1]

theorem receivers_shares {peers : List PeerInfo} {poly : RandomPolynomialValue}
    (created : poly.createMessage peers = .ok out) :
    (out.flatMap (ContextRun.parcels srv contextID i peers)).map Parcel.receiver =
      peers.map PeerInfo.peerID := by
  have items := RandomPolynomialValue.createMessage_eq_ok created
  have ids := congrArg (List.map PeerInfo.peerID) (List.zipIdx_map_fst 0 peers)
  rw [List.map_map] at ids
  rw [← ids]
  clear created
  generalize peers.zipIdx = entries at items ⊢
  induction items with
  | nil => rfl
  | cons item _ ih =>
    obtain ⟨value, -, rfl⟩ := item
    simpa [ContextRun.parcels] using ih

/-- No peer is sent more than one message of a step. -/
theorem receivers_createMessage {peers : List PeerInfo} {body : StepBody}
    (created : body.createMessage peers = .ok out) :
    ((out.flatMap (ContextRun.parcels srv contextID i peers)).map Parcel.receiver).Sublist
      (peers.map PeerInfo.peerID) := by
  have broadcast (item : OutMessage) (toAll : item.peerID = none) :
      (([item].flatMap (ContextRun.parcels srv contextID i peers)).map Parcel.receiver).Sublist
        (peers.map PeerInfo.peerID) := by
    simp [ContextRun.parcels, toAll, Function.comp_def]
  cases body with
  | request req =>
    obtain ⟨item, rfl, -, toAll⟩ := RequestMpcStep.createMessage_eq_ok created
    exact broadcast item toAll
  | skShare poly | rskShare poly => rw [receivers_shares created]
  | getReady =>
    cases created
    exact List.nil_sublist _
  | ackMpc | ready | gpk | r | s | ackGPK | ackRS =>
    cases created
    exact broadcast _ rfl

namespace ContextRun

variable {kenv : KeyEnv} {cfg : Config} {run next : ContextRun}

theorem Posts.elsewhere (posts : run.Posts) (peers : next.ctx.peers = run.ctx.peers)
    (self : next.srv.self = run.srv.self)
    (leaves : ∀ i parcels, next.pc ≠ .sending i parcels) : next.Posts :=
  ⟨by rw [peers, self]; exact posts.named, fun i parcels isPc => absurd isPc (leaves i parcels),
    fun i parcels isPc => absurd isPc (leaves i parcels)⟩

theorem Turns.not_sending (turn : run.Turns kenv cfg choice pc) :
    ∀ i parcels, pc ≠ .sending i parcels := by
  cases turn <;> simp

theorem Does.posts (does : Does kenv cfg run action next)
    (permits : run.Permits (fun _ _ => True) action) (posts : run.Posts) : next.Posts := by
  have addressed := does.addressed posts.addressed
  cases does with
  | turns turn => exact posts.elsewhere rfl rfl turn.not_sending
  | startsLoop | skipsLoop | waits | fails | quits | quitPuts =>
    exact posts.elsewhere rfl rfl (by simp)
  | loopPanics => exact posts.elsewhere rfl rfl (by simp [panic])
  | @stops _ _ result => exact posts.elsewhere rfl rfl (by cases result <;> simp [afterWait])
  | finishes isPc found finishes =>
    obtain ⟨_, rfl⟩ := StepBody.finish_srv finishes
    exact posts.elsewhere rfl rfl (by simp)
  | @inits choice i step body peers out isPc found inits creates =>
    simp only [Permits, isPc] at permits
    have ids := StepBody.initStep_peerIDs inits
    have named : (peers.map PeerInfo.peerID).count run.srv.self ≤ 1 := by
      rw [ids]
      exact posts.named
    refine ⟨named, addressed, ?_⟩
    rintro _ _ ⟨⟩
    calc ownParcels run.srv.self (out.flatMap (parcels run.srv run.ctx.contextID i peers))
        ≤ _ := ownParcels_le_count _ _
      _ ≤ (peers.map PeerInfo.peerID).count run.srv.self :=
        (receivers_createMessage creates).count_le _
      _ ≤ 1 := named
  | sends isPc | sendsOwn isPc =>
    refine ⟨posts.named, addressed, ?_⟩
    rintro _ _ ⟨⟩
    exact le_trans (List.Sublist.countP_le (List.sublist_cons_self _ _)) (posts.own _ _ isPc)
  | loopStops | loopRounds | arrives => exact ⟨posts.named, addressed, posts.own⟩
  | quitter | quitterEnds | quitterPuts => exact ⟨posts.named, addressed, posts.own⟩

/-- What holds of the channels of all steps. -/
def Roomy (run : ContextRun) : Prop :=
  ∀ i (step : Step), run.ctx.mpcSteps[i]? = some step →
    step.Roomy run.ctx.peers.length (run.dues i)

section

variable (roomy : run.Roomy)

include roomy

theorem Roomy.set (isSet : next.ctx.mpcSteps = run.ctx.mpcSteps.set i step')
    (peers : next.ctx.peers.length = run.ctx.peers.length) (le : ∀ j, (run.dues j).Le (next.dues j))
    (here : step'.Roomy run.ctx.peers.length (next.dues i)) : next.Roomy := by
  intro j step found
  rw [isSet] at found
  rw [peers]
  rcases getElem?_set_cases found with ⟨rfl, rfl⟩ | old
  · exact here
  · exact (roomy j step old).mono (le j)

theorem Roomy.keep (same : next.ctx.mpcSteps = run.ctx.mpcSteps)
    (peers : next.ctx.peers.length = run.ctx.peers.length)
    (le : ∀ j, (run.dues j).Le (next.dues j)) :
    next.Roomy := by
  intro j step found
  rw [peers]
  exact (roomy j step (same ▸ found)).mono (le j)

theorem Roomy.stays (here : step'.Roomy run.ctx.peers.length (run.dues i)) :
    (run.setStep i step').Roomy :=
  roomy.set rfl rfl (fun _ => ⟨le_rfl, le_rfl, le_rfl, le_rfl, id⟩) here

theorem Roomy.goesOn {sent : List Parcel} (found : run.ctx.mpcSteps[i]? = some step)
    (le : Pc.Le run.srv.self run.pc pc) (leaves : ∀ result sends, pc ≠ .quitting result sends)
    (here : step.Roomy run.ctx.peers.length (run.dues i) →
      (run.dues i).Le ({ run with pc }.dues i) →
        step'.Roomy run.ctx.peers.length ({ run with pc }.dues i)) :
    Roomy { run.setStep i step' with pc, sent } :=
  roomy.set rfl rfl (dues_le le leaves) (here (roomy i step found) (dues_le le leaves i))

theorem Roomy.body {body : StepBody} (found : run.ctx.mpcSteps[i]? = some step)
    (le : Pc.Le run.srv.self run.pc pc) (leaves : ∀ result sends, pc ≠ .quitting result sends)
    (isSet : next.ctx.mpcSteps = run.ctx.mpcSteps.set i { step with body })
    (peers : next.ctx.peers.length = run.ctx.peers.length)
    (isDues : next.dues = { run with pc }.dues) : next.Roomy := by
  refine roomy.set isSet peers (fun j => isDues ▸ dues_le le leaves j) ?_
  rw [isDues]
  have after := (roomy i step found).mono (dues_le le leaves i)
  exact ⟨after.capacity, after.unread, after.marks, after.finish, after.begun⟩

/-- A `quit` has done one more of its sends. -/
theorem Roomy.quitMove (isSet : next.ctx.mpcSteps = run.ctx.mpcSteps.set (sends / 2) step')
    (peers : next.ctx.peers.length = run.ctx.peers.length)
    (sent : ∀ number, quitSent run.ctx.bQuit run.quitter number run.pc =
      (if number < sends then 1 else 0) ∧ quitSent next.ctx.bQuit next.quitter number next.pc =
        if number < sends + 1 then 1 else 0)
    (self : next.srv.self = run.srv.self) (le : Pc.Le run.srv.self run.pc next.pc)
    (found : run.ctx.mpcSteps[sends / 2]? = some step) (put : step.QuitPut result sends step') :
    next.Roomy := by
  have more (number : Nat) : quitSent run.ctx.bQuit run.quitter number run.pc ≤
      quitSent next.ctx.bQuit next.quitter number next.pc := by
    rw [(sent number).1, (sent number).2]
    split <;> split <;> omega
  have grows (j : Nat) : (run.dues j).Le (next.dues j) := by
    simp only [dues, self]
    exact ⟨le.own j, le.stops j, more _, more _, le.begun j⟩
  refine roomy.set isSet peers grows ((roomy _ step found).quitPut (grows _) put ?_ ?_)
  · intro even
    have number : 2 * (sends / 2) = sends := by omega
    simp only [dues, (sent _).1, (sent _).2, number]
    simp
  · intro odd
    have number : 2 * (sends / 2) + 1 = sends := by omega
    simp only [dues, (sent _).1, (sent _).2, number]
    simp

end

/-- Every move keeps room, as long as messages arrive where few are unread. -/
theorem Does.roomy (does : Does kenv cfg run action next)
    (permits : run.Permits (fun _ _ => True) action) (modest : run.Modest action)
    (locks : run.Locks) (posts : run.Posts) (roomy : run.Roomy) : next.Roomy := by
  cases does with
  | turns turn => exact roomy.keep rfl rfl (dues_le turn.le.1 turn.le.2)
  | @startsLoop choice i step isPc found waits =>
    refine roomy.goesOn found (isPc ▸ Pc.le_loop _ i) (by simp) fun before le => ?_
    have after := before.mono le
    refine ⟨after.capacity, ?_, after.marks, after.finish, fun _ => by simp [dues, Pc.begun]⟩
    refine le_trans ?_ after.unread
    unfold Step.unread
    cases step.looping with
    | true => exact le_rfl
    | false => exact Mailbox.length_unread_start _
  | @skipsLoop choice i step isPc found idle room =>
    refine roomy.goesOn found (isPc ▸ Pc.le_loop _ i) (by simp) fun before le => ?_
    refine before.tell le none ?_
    have results := le.results
    simp [dues, Pc.begun, isPc, idle] at results ⊢
    omega
  | @inits choice i step body peers out isPc found inits creates =>
    simp only [Permits, isPc] at permits
    have ids := congrArg List.length (StepBody.initStep_peerIDs inits)
    rw [List.length_map, List.length_map] at ids
    exact roomy.body found (isPc ▸ Pc.le_inits _ i _) (by simp) rfl ids rfl
  | @sends choice i parcel rest isPc away =>
    exact roomy.keep rfl rfl (dues_le (isPc ▸ Pc.le_sends _ i parcel rest) (by simp))
  | @sendsOwn choice i parcel rest step isPc own isContext found room =>
    have once := posts.own _ _ isPc
    have here : parcel.msg.stepID = i := posts.addressed _ _ isPc parcel (List.mem_cons_self ..)
    refine roomy.goesOn found (isPc ▸ Pc.le_sends _ i parcel rest) (by simp) fun before le => ?_
    refine before.put le _ ?_
    -- it is the only message that the node sends itself in this step
    have counted : ownParcels run.srv.self (parcel :: rest) = ownParcels run.srv.self rest + 1 := by
      have isOwn : parcel.receiver = run.srv.self ∧ parcel.msgCode = .mpcMessage := own
      simp [ownParcels, isOwn]
    have unread := before.unread
    simp only [dues, Pc.own, isPc, here, lt_irrefl, if_false, if_true] at unread ⊢
    omega
  | @waits choice i step result finish isPc found inTime head =>
    refine roomy.goesOn found (isPc ▸ Pc.le_waits _ i result) (by simp) fun before le => ?_
    exact before.take le head
  | @stops choice i result step isPc found room =>
    refine roomy.goesOn found (isPc ▸ Pc.le_stops _ i run result)
      (by cases result <;> simp [afterWait]) fun before le => ?_
    refine before.stop le ?_
    have stopped : (run.afterWait i result).stops i = 1 := by
      cases result <;> simp [afterWait, Pc.stops]
    have notYet : run.pc.stops i = 0 := by simp [isPc, Pc.stops]
    have quits := le.quits
    simp only [dues, stopped, notYet] at quits ⊢
    omega
  | @finishes choice i step body mpcResult srv isPc found finishes =>
    obtain ⟨_, rfl⟩ := StepBody.finish_srv finishes
    exact roomy.body found (isPc ▸ Pc.le_finishes _ i) (by simp) rfl rfl rfl
  | fails isPc =>
    exact roomy.keep rfl rfl (dues_le (Pc.le_of_end (by simp [Pc.own]) (by simp [Pc.stops])
      (by simp [Pc.begun])) (by simp))
  | quits isPc first unlocked =>
    refine roomy.keep rfl rfl fun j => ⟨?_, ?_, ?_, ?_, ?_⟩
    all_goals simp [dues, isPc, first, quitSent, Pc.own, Pc.stops, Pc.begun]
  | @quitPuts choice result sends step step' isPc found put =>
    obtain ⟨quits, unlocked⟩ := locks.quitting _ _ isPc
    refine roomy.quitMove rfl rfl (fun number => ?_) rfl ⟨fun _ => ?_, fun _ => ?_, fun _ => ?_⟩
      found put
    · rw [isPc, quits, unlocked, quitSent_quitting]
      exact ⟨rfl, by rw [setStep_bQuit, setStep_quitter, quits, unlocked, quitSent_quitting]⟩
    all_goals simp [isPc, Pc.own, Pc.stops, Pc.begun]
  | @loopStops i step rest found loops head =>
    have before := roomy i step found
    refine roomy.stays ⟨before.capacity, ?_, ?_, before.finish, by simp⟩
    · have unread := before.unread
      rwa [Step.unread, loops, head, ← Mailbox.unread_stopped] at unread
    · refine le_trans ?_ before.marks
      rw [head]
      exact List.Sublist.countP_le (List.sublist_cons_self _ _)
  | loopRounds found loops head round =>
    exact roomy.stays ((roomy _ _ found).round loops head round)
  | loopPanics =>
    exact roomy.keep rfl rfl (dues_le (Pc.le_of_end (by simp [Pc.own]) (by simp [Pc.stops])
      (by simp [Pc.begun])) (by simp))
  | @arrives sender msg step isContext found room =>
    refine roomy.stays ((roomy _ _ found).put ⟨le_rfl, le_rfl, le_rfl, le_rfl, id⟩ _ ?_)
    have few : step.unread.length < run.ctx.peers.length := modest step found
    omega
  | quitter first =>
    refine roomy.keep rfl rfl fun j => ⟨le_rfl, le_rfl, ?_, ?_, id⟩
    all_goals simp [dues, first, quitSent]
  | quitterEnds isQuitter =>
    obtain ⟨quits, elsewhere⟩ := locks.quitter _ _ isQuitter
    refine roomy.keep rfl rfl fun j => ⟨le_rfl, le_rfl, ?_, ?_, id⟩
    all_goals
      simp only [dues, quits]
      rw [quitSent_free elsewhere]
      exact quitSent_le_one ..
  | @quitterPuts error sends step step' isQuitter found put =>
    obtain ⟨quits, elsewhere⟩ := locks.quitter _ _ isQuitter
    refine roomy.quitMove rfl rfl (fun number => ?_) rfl
      ⟨fun _ => le_rfl, fun _ => le_rfl, fun _ => id⟩ found put
    rw [isQuitter, quits, quitSent_quitter]
    exact ⟨rfl, by rw [setStep_bQuit, quits, quitSent_quitter]⟩

end ContextRun

/-- What every run keeps, whatever arrives where few messages are unread. -/
structure ContextRun.Flows (run : ContextRun) : Prop where
  locks : run.Locks
  posts : run.Posts
  roomy : run.Roomy

/-! ### No process waits for good -/

theorem Step.handleMessage_isSome (loops : step.looping = true) (nonempty : step.msgChan ≠ [])
    (room : step.waiting = 1 → step.finish.length < 3) : step.handleMessage list ≠ none := by
  intro held
  match head : step.msgChan with
  | [] => exact nonempty head
  | none :: rest => simp [Step.handleMessage, loops, head] at held
  | some msg :: rest =>
    simp only [Step.handleMessage, loops, head] at held
    split at held
    · cases held
    next busy =>
      push Not at busy
      split at held
      · cases held
      · split at held
        next done =>
          have last := room (by omega)
          simp [Step.sendFinish, last] at held
        next => cases held
      · cases held
      · cases held

/-- A full channel is read, and its loop is not held up itself. -/
theorem Step.Roomy.not_clogged {peers : Nat} {dues : Dues} (roomy : step.Roomy peers dues)
    (results : dues.results ≤ 1) (free : dues.own + dues.stops + dues.quits ≤ 2) :
    ¬step.Clogged list := by
  rintro ⟨full, still⟩
  have capacity := roomy.capacity
  by_cases loops : step.looping = true
  · have held : step.handleMessage list = none := by
      rcases still with idle | held
      · cases loops.symm.trans idle
      · exact held
    refine Step.handleMessage_isSome loops ?_ (fun one => ?_) held
    · intro empty
      rw [empty, List.length_nil] at full
      omega
    · have finish := roomy.finish
      rw [if_neg (by omega)] at finish
      omega
  · have idle : step.looping = false := by simpa using loops
    have unread := roomy.unread
    have marks := roomy.marks
    have length := Mailbox.length_eq step.msgChan
    rw [Step.unread, idle] at unread
    omega

theorem Step.Roomy.finish_lt {peers : Nat} {dues : Dues} (roomy : step.Roomy peers dues)
    (results : dues.results ≤ 1) : step.finish.length < 3 := by
  have finish := roomy.finish
  split at finish <;> omega

namespace ContextRun

variable {kenv : KeyEnv} {cfg : Config} {run : ContextRun}

theorem Flows.not_wedged (flows : run.Flows) : ¬run.Wedged := by
  obtain ⟨locks, posts, roomy⟩ := flows
  rintro ⟨i, step, found, ⟨puts, clogged⟩ | ⟨puts, full⟩⟩
  · refine (roomy i step found).not_clogged (quitSent_le_one ..) ?_ clogged
    have own := run.pc.own_le_one run.srv.self i
    have stops := run.pc.stops_le_one i
    have quits := quitSent_le_one run.ctx.bQuit run.quitter (2 * i) run.pc
    simp only [dues]
    cases puts with
    | @own j parcel rest isPc own =>
      have here := posts.addressed _ _ isPc parcel (List.mem_cons_self ..)
      have none : run.pc.stops parcel.msg.stepID = 0 := by simp [isPc, Pc.stops, here]
      omega
    | stop isPc =>
      have none : run.pc.stops i = 0 := by simp [isPc, Pc.stops]
      omega
    | quit isPc =>
      obtain ⟨held, unlocked⟩ := locks.quitting _ _ isPc
      have none : quitSent run.ctx.bQuit run.quitter (2 * i) run.pc = 0 := by
        simp [held, unlocked, isPc]
      omega
    | quitter isQuitter =>
      obtain ⟨held, -⟩ := locks.quitter _ _ isQuitter
      have none : quitSent run.ctx.bQuit run.quitter (2 * i) run.pc = 0 := by
        simp [held, isQuitter]
      omega
  · have room := (roomy i step found).finish_lt (quitSent_le_one ..)
    omega

end ContextRun

/-! ### New contexts -/

/-- A step as it is created, before anything has been put on its channels. -/
structure Step.Unused (peers : Nat) (step : Step) : Prop where
  capacity : step.capacity = peers + 3
  msgChan : step.msgChan = []
  finish : step.finish = []
  looping : step.looping = false

theorem unused_of_createContext {peers : List PeerInfo}
    (created : createContext cfg ctxType mpcID peers preSetValue = .ok ctx) :
    ∀ step ∈ ctx.mpcSteps, step.Unused peers.length := by
  obtain ⟨leader, poly, steps, -, isSteps, rfl⟩ := createContext_steps created
  rcases isSteps with rfl | rfl
  all_goals
    cases leader <;> simp only [gpkSteps, gpkStep, signSteps, signStep, Bool.false_eq_true, if_true,
      if_false, List.cons_append, List.nil_append, List.forall_mem_cons]
  all_goals
    repeat refine ⟨⟨rfl, rfl, rfl, rfl⟩, ?_⟩
    simp

theorem flows_of_createContext {peers : List PeerInfo}
    (created : createContext cfg ctxType mpcID peers preSetValue = .ok ctx)
    (once : (peers.map PeerInfo.peerID).count srv.self ≤ 1) : (ContextRun.start srv ctx).Flows := by
  have isPeers := createContext_peers created
  refine ⟨⟨?_, ?_⟩, ⟨isPeers ▸ once, ?_, ?_⟩, ?_⟩
  · simp [ContextRun.start]
  · simp [ContextRun.start]
  · simp [ContextRun.Addressed, ContextRun.start]
  · simp [ContextRun.start]
  · intro i step found
    have unused := unused_of_createContext created step (List.mem_of_getElem? found)
    refine ⟨?_, ?_, ?_, ?_, ?_⟩
    · rw [unused.capacity, ← isPeers]
      rfl
    · simp [Step.unread, unused.msgChan, unused.looping, Mailbox.unread]
    · simp [unused.msgChan]
    · simp [unused.finish]
    · simp [unused.looping]

/-! ### A follower among two peers -/

namespace FloodSample

def peers : List PeerInfo := [⟨1, 5⟩, ⟨2, 6⟩]

def server : MpcDistributor := { KeyFileSample.server 2 with self := 2 }

def ack : MpcMessage := ⟨7, 0, [], [1], []⟩

/-- The run of the follower after these messages of the leader, for so many moves. -/
def follower (Meets : ContextRun → Action → Prop) [∀ run action, Decidable (Meets run action)]
    (acks moves : Nat) : Option ContextRun :=
  match createContext ⟨2, 2⟩ .mpcGPKPeer 7 peers [] with
  | .ok ctx => ContextRun.replay KeyFileSample.env ⟨2, 2⟩ Meets
      (List.replicate acks (.getMessage 1 ack) ++ (Choice.plain 0 [4, 5]).moves moves)
      (.start server ctx)
  | _ => none

theorem runs_of_follower {Meets : ContextRun → Action → Prop}
    [∀ run action, Decidable (Meets run action)] {acks moves : Nat} {run : ContextRun}
    (ran : follower Meets acks moves = some run) :
    ∃ ctx, createContext ⟨2, 2⟩ .mpcGPKPeer 7 peers [] = .ok ctx ∧
      ContextRun.Runs KeyFileSample.env ⟨2, 2⟩ Meets (.start server ctx)
        (List.replicate acks (1, ack)) run := by
  unfold follower at ran
  split at ran
  next ctx created =>
    have runs := ContextRun.Runs.replay .start ran
    have heard : (List.replicate acks (Action.getMessage 1 ack) ++
        (Choice.plain 0 [4, 5]).moves moves).flatMap Action.arrival =
          List.replicate acks (1, ack) := by
      simp [Choice.moves, Action.arrival, List.flatMap_replicate]
    rw [List.nil_append, heard] at runs
    exact ⟨ctx, created, runs⟩
  next => cases ran

/-- The first step with nothing but the messages of the leader. -/
def flooded : Step :=
  { Step.create (.ackMpc .mpcGPKPeer) peers 0 with
    msgChan := List.replicate 5 (some (ContextRun.stepMessage 1 ack)), finish := [none] }

end FloodSample

/-- As long as every message that arrives finds fewer unread messages than there are peers, neither
the main process nor a `quit` ever waits for good. -/
theorem context_never_wedged {kenv : KeyEnv} {cfg : Config} {ctxType : CtxType} {mpcID : Nat}
    {peers : List PeerInfo} {preSetValue : List MpcValue} {ctx : MpcContext}
    (created : createContext cfg ctxType mpcID peers preSetValue = .ok ctx) {srv : MpcDistributor}
    (once : (peers.map PeerInfo.peerID).count srv.self ≤ 1)
    {heard : List (NodeID × MpcMessage)} {run : ContextRun}
    (runs : ContextRun.Runs kenv cfg ContextRun.Modest (.start srv ctx) heard run) :
    ¬run.Wedged := by
  have flows : run.Flows := by
    refine runs.invariant (fun _ run => run.Flows) ?_ ?_
    · exact flows_of_createContext created once
    · intro heard run action next _ before permits modest does
      exact ⟨does.locks before.locks, does.posts permits before.posts,
        does.roomy permits modest before.locks before.posts before.roomy⟩
  exact flows.not_wedged

open FloodSample in
/-- The leader repeats its message, and the follower comes past its own. -/
theorem context_never_wedged_follower :
    ∃ ctx run, createContext ⟨2, 2⟩ .mpcGPKPeer 7 peers [] = .ok ctx ∧
      ContextRun.Runs KeyFileSample.env ⟨2, 2⟩ ContextRun.Modest (.start server ctx)
        [(1, ack), (1, ack)] run ∧
      run.pc = .waiting 0 ∧ ¬run.Wedged := by
  have place : (follower ContextRun.Modest 2 10).map ContextRun.pc = some (.waiting 0) := by
    decide +kernel
  obtain ⟨run, ran, isPc⟩ := Option.map_eq_some_iff.mp place
  obtain ⟨ctx, created, runs⟩ := runs_of_follower ran
  exact ⟨ctx, run, created, runs, isPc, context_never_wedged created (by decide +kernel) runs⟩

open FloodSample in
/-- The leader sends one message five times. The step has no loop, its channel is full, and the
follower's own message does not fit. -/
theorem repeated_messages_wedge :
    ∃ ctx run, createContext ⟨2, 2⟩ .mpcGPKPeer 7 peers [] = .ok ctx ∧
      ContextRun.Runs KeyFileSample.env ⟨2, 2⟩ (fun _ _ => True) (.start server ctx)
        (List.replicate 5 (1, ack)) run ∧
      run.Wedged := by
  have place : (follower (fun _ _ => True) 5 8).map
      (fun run => (run.pc, run.ctx.mpcSteps[0]?, run.srv.self)) =
      some (.sending 0 [⟨2, .mpcMessage, ack⟩], some flooded, 2) := by
    decide +kernel
  obtain ⟨run, ran, here⟩ := Option.map_eq_some_iff.mp place
  simp only [Prod.mk.injEq] at here
  obtain ⟨ctx, created, runs⟩ := runs_of_follower ran
  refine ⟨ctx, run, created, runs, 0, flooded, here.2.1, .inl ⟨?_, ?_⟩⟩
  · exact .own here.1 ⟨here.2.2.symm, rfl⟩
  · exact ⟨by decide +kernel, .inl rfl⟩

end SchnorrMpc
