import SchnorrMpc.Mpc.View

/-!
# How runs get from step to step

A run gets past a step only by finishing it. Kinds of steps stay, and what no
step writes stays in the store.
-/
namespace SchnorrMpc

open Lib

variable {bodies : List StepBody} {i : Nat} {key : ResultKey} {pc : Pc} {result : Option Err}
  {choice : Choice} {start u v : ContextRun}

/-- Step `i` has been finished. -/
def Stage.Past (i : Nat) : Stage → Prop
  | before j => i < j
  | during j _ => i < j
  | done => True
  | failed _ | panicked => False

/-- No step before `i` will be finished from here on. -/
def Stage.AtLeast (i : Nat) : Stage → Prop
  | before j | during j _ => i ≤ j
  | failed _ | done | panicked => True

namespace View

variable {kenv : KeyEnv} {cfg : Config} {arrives : NodeID → MpcMessage → Prop} {v v' : View}

private theorem map_kind_set {body body' : StepBody} (found : bodies[i]? = some body)
    (same : body'.kind = body.kind) :
    (bodies.set i body').map StepBody.kind = bodies.map StepBody.kind := by
  rw [List.map_set, same]
  refine List.ext_getElem? fun j => ?_
  rw [List.getElem?_set]
  split
  next here =>
    subst here
    obtain ⟨inside, isBody⟩ := List.getElem?_eq_some_iff.mp found
    simp [inside, isBody]
  next => rfl

theorem Moves.kinds (moves : Moves kenv cfg arrives v v') :
    v'.bodies.map StepBody.kind = v.bodies.map StepBody.kind := by
  cases moves with
  | handle i sender msg body body' accepted isBody heard isStep handled =>
    exact map_kind_set isBody (StepBody.handleMessage_kind handled)
  | init i body body' random peers out isStage isBody admissible inits creates =>
    exact map_kind_set isBody (StepBody.initStep_kind inits)
  | finish i body body' choice store srv isStage isBody iterates finishes =>
    exact map_kind_set isBody (StepBody.finish_kind finishes)
  | mail | fail | complete | crash => rfl

theorem Reaches.kinds (reaches : Reaches kenv cfg arrives v v') :
    v'.bodies.map StepBody.kind = v.bodies.map StepBody.kind := by
  induction reaches with
  | refl => rfl
  | tail _ last ih => exact last.kinds.trans ih

theorem Moves.atLeast (moves : Moves kenv cfg arrives v v') (later : v.stage.AtLeast i) :
    v'.stage.AtLeast i := by
  cases moves with
  | handle => exact later
  | init j body body' random peers out isStage isBody admissible inits creates =>
    rw [isStage] at later
    exact later
  | mail j item rest isStage =>
    rw [isStage] at later
    exact later
  | finish j body body' choice store srv isStage isBody iterates finishes =>
    rw [isStage] at later
    exact Nat.le_succ_of_le later
  | fail | complete | crash => trivial

private theorem kind_mem_drop {j : Nat} {body : StepBody} (found : bodies[j]? = some body)
    (later : i ≤ j) : body.kind ∈ (bodies.map StepBody.kind).drop i := by
  refine List.mem_of_getElem? (i := j - i) ?_
  rw [List.getElem?_drop, Nat.add_sub_of_le later, List.getElem?_map, found]
  rfl

theorem Moves.result_frame (moves : Moves kenv cfg arrives v v') (later : v.stage.AtLeast i)
    (unwritten : ∀ kind ∈ (v.bodies.map StepBody.kind).drop i, key ∉ kind.writes) :
    v'.store.result key = v.store.result key := by
  cases moves with
  | finish j body body' choice store srv isStage isBody iterates finishes =>
    rw [isStage] at later
    obtain ⟨between, finished, stored⟩ := StepBody.finish_cases finishes
    have kept := (StepBody.finishStep_frame finished).1 key
      (unwritten _ (kind_mem_drop isBody later))
    rcases stored with ⟨-, created⟩ | ⟨-, rfl, -⟩
    · obtain ⟨_, _, _, _, _, _, _, -, -, -, -, -, -, -, rfl, -⟩ :=
        MpcDistributor.createKeystore_eq_ok created
      exact kept
    · exact kept
  | handle | init | mail | fail | complete | crash => rfl

theorem Reaches.result_frame (reaches : Reaches kenv cfg arrives v v') (later : v.stage.AtLeast i)
    (unwritten : ∀ kind ∈ (v.bodies.map StepBody.kind).drop i, key ∉ kind.writes) :
    v'.stage.AtLeast i ∧ v'.store.result key = v.store.result key := by
  induction reaches with
  | refl => exact ⟨later, rfl⟩
  | @tail u w path last ih =>
    obtain ⟨still, same⟩ := ih
    refine ⟨last.atLeast still, ?_⟩
    rw [last.result_frame still (by rw [Reaches.kinds path]; exact unwritten), same]

theorem Moves.bytes_frame (moves : Moves kenv cfg arrives v v') (later : v.stage.AtLeast i)
    (silent : ∀ kind ∈ (v.bodies.map StepBody.kind).drop i, kind.writesBytes = false) :
    v'.store.byteResult = v.store.byteResult := by
  cases moves with
  | finish j body body' choice store srv isStage isBody iterates finishes =>
    rw [isStage] at later
    have isSilent := silent _ (kind_mem_drop isBody later)
    obtain ⟨between, finished, stored⟩ := StepBody.finish_cases finishes
    have kept := (StepBody.finishStep_frame finished).2
    rcases stored with ⟨⟨ptStep, rfl⟩, -⟩ | ⟨-, rfl, -⟩
    · rw [← StepBody.finish_kind finishes] at isSilent
      cases isSilent
    · refine kept fun isAck => ?_
      rw [isAck] at isSilent
      cases isSilent
  | handle | init | mail | fail | complete | crash => rfl

theorem Reaches.bytes_frame (reaches : Reaches kenv cfg arrives v v') (later : v.stage.AtLeast i)
    (silent : ∀ kind ∈ (v.bodies.map StepBody.kind).drop i, kind.writesBytes = false) :
    v'.stage.AtLeast i ∧ v'.store.byteResult = v.store.byteResult := by
  induction reaches with
  | refl => exact ⟨later, rfl⟩
  | @tail u w path last ih =>
    obtain ⟨still, same⟩ := ih
    refine ⟨last.atLeast still, ?_⟩
    rw [last.bytes_frame still (by rw [Reaches.kinds path]; exact silent), same]

/-- The only bytes that are stored are the result of the context. -/
theorem Moves.byteResult_frame (moves : Moves kenv cfg arrives v v')
    (other : key ≠ .mpcContextResult) : v'.store.byteResult key = v.store.byteResult key := by
  cases moves with
  | finish i body body' choice store srv isStage isBody iterates finishes =>
    obtain ⟨between, finished, stored⟩ := StepBody.finish_cases finishes
    have kept : between.byteResult key = v.store.byteResult key := by
      by_cases isAck : body.kind = .ackRS
      · cases body with
        | ackRS mars =>
          simp only [StepBody.finishStep, MpcAckRSStep.finish, Outcome.bind_eq_ok_iff] at finished
          obtain ⟨_, ⟨_, -, _, -, built⟩, same⟩ := finished
          cases built
          cases same
          simp [other]
        | _ => cases isAck
      · rw [(StepBody.finishStep_frame finished).2 isAck]
    rcases stored with ⟨-, created⟩ | ⟨-, rfl, -⟩
    · obtain ⟨_, _, _, _, _, _, _, -, -, -, -, -, -, -, rfl, -⟩ :=
        MpcDistributor.createKeystore_eq_ok created
      simpa [other] using kept
    · exact kept
  | handle | init | mail | fail | complete | crash => rfl

theorem Reaches.byteResult_frame (reaches : Reaches kenv cfg arrives v v')
    (other : key ≠ .mpcContextResult) : v'.store.byteResult key = v.store.byteResult key := by
  induction reaches with
  | refl => rfl
  | tail _ last ih => rw [last.byteResult_frame other, ih]

/-- No step is left to be done. -/
def Over (v : View) : Prop :=
  match v.stage with
  | .before i => v.bodies[i]? = none
  | .during .. => False
  | _ => True

theorem Moves.ended (moves : Moves kenv cfg arrives v v') (ended : v.Over) :
    v'.Over ∧ v'.store = v.store ∧ v'.srv = v.srv := by
  unfold Over at ended ⊢
  cases moves with
  | handle i sender msg body body' accepted isBody heard isStep handled =>
    refine ⟨?_, rfl, rfl⟩
    dsimp only
    split at ended <;> simp_all
  | init i body body' random peers out isStage isBody admissible inits creates =>
    rw [isStage] at ended
    exact absurd (isBody.symm.trans ended) (by simp)
  | mail i item rest isStage =>
    rw [isStage] at ended
    exact ended.elim
  | finish i body body' choice store srv isStage isBody iterates finishes =>
    rw [isStage] at ended
    exact ended.elim
  | fail | complete | crash => exact ⟨trivial, rfl, rfl⟩

theorem Reaches.ended (reaches : Reaches kenv cfg arrives v v') (ended : v.Over) :
    v'.Over ∧ v'.store = v.store ∧ v'.srv = v.srv := by
  induction reaches with
  | refl => exact ⟨ended, rfl, rfl⟩
  | tail _ last ih =>
    obtain ⟨still, store, srv⟩ := ih
    obtain ⟨after, store', srv'⟩ := last.ended still
    exact ⟨after, store'.trans store, srv'.trans srv⟩

end View

theorem inbox_of_empty {heard : NodeID → MpcMessage → Prop} {steps : List Step}
    (empty : ∀ step ∈ steps, step.msgChan = []) : Inbox heard steps := by
  intro i step found m member
  rw [empty step (List.mem_of_getElem? found)] at member
  cases member

namespace ContextRun

variable {kenv : KeyEnv} {cfg : Config} {arrives : NodeID → MpcMessage → Prop}
  {run next : ContextRun}

/-- A move that finishes no step: it stores nothing, unsends nothing, and gets past no step. -/
structure Calm (run next : ContextRun) : Prop where
  srv : next.srv = run.srv
  store : next.ctx.mpcResult = run.ctx.mpcResult
  sent : run.sent ⊆ next.sent
  past : ∀ i < run.ctx.mpcSteps.length, next.pc.stage.Past i → run.pc.stage.Past i

theorem Calm.of_panic : Calm run run.panic :=
  ⟨rfl, rfl, List.Subset.refl _, fun _ _ past => past.elim⟩

theorem Calm.of_fail (error : Err) : Calm run (run.fail error) :=
  ⟨rfl, rfl, List.Subset.refl _, fun _ _ past => past.elim⟩

/-- Another state of the channels does not matter, nor does the main process where it gets past
nothing. -/
theorem Calm.of_onStep {ctx : MpcContext} {act : Step → Option Step}
    (done : run.ctx.onStep i act = some ctx) {quitter : Option (Err × Nat)}
    (past : ∀ i < run.ctx.mpcSteps.length, pc.stage.Past i → run.pc.stage.Past i) :
    Calm run { run with ctx, pc, quitter } := by
  obtain ⟨_, _, -, -, rfl⟩ := MpcContext.onStep_eq_some done
  exact ⟨rfl, rfl, List.Subset.refl _, past⟩

theorem getMessage_calm {sender : NodeID} {msg : MpcMessage}
    (got : run.getMessage sender msg = some next) : Calm run next ∧ next.pc = run.pc := by
  obtain ⟨_, _, -, -, -, rfl⟩ := getMessage_eq_some got
  exact ⟨⟨rfl, rfl, List.Subset.refl _, fun _ _ past => past⟩, rfl⟩

theorem p2pMessage_calm {parcel : Parcel} (sent : run.p2pMessage parcel = some next)
    (past : ∀ i < run.ctx.mpcSteps.length, pc.stage.Past i → run.pc.stage.Past i) :
    Calm run { next with pc } := by
  simp only [p2pMessage] at sent
  split at sent
  · obtain ⟨calm, -⟩ := getMessage_calm sent
    exact ⟨calm.srv, calm.store, fun _ was => calm.sent (List.mem_append_left _ was), past⟩
  · cases sent
    exact ⟨rfl, rfl, List.subset_append_left _ _, past⟩

theorem initStep_calm {env : Env} {random : Randomness} (isPc : run.pc = .initStep i)
    (inited : run.initStep env random i = some next) : Calm run next := by
  unfold initStep at inited
  split at inited
  next missing =>
    cases inited
    refine ⟨rfl, rfl, List.Subset.refl _, fun j inside _ => ?_⟩
    rw [isPc]
    exact lt_of_lt_of_le inside (List.getElem?_eq_none_iff.mp missing)
  next =>
    obtain ⟨returned, -, rfl⟩ := Option.map_eq_some_iff.mp inited
    split
    · exact .of_panic
    · exact .of_fail _
    · simp only
      split
      · exact ⟨rfl, rfl, List.Subset.refl _, fun j _ past => by rw [isPc]; exact past⟩
      · exact .of_panic

theorem waitFinish_calm {timeOut : Bool} (isPc : run.pc = .waiting i)
    (waited : run.waitFinish timeOut i = some next) : Calm run next := by
  unfold waitFinish at waited
  split at waited
  · cases waited
  · split at waited
    · cases waited
      exact ⟨rfl, rfl, List.Subset.refl _, fun j _ past => by rw [isPc]; exact past⟩
    · split at waited
      · cases waited
      · cases waited
        exact ⟨rfl, rfl, List.Subset.refl _, fun j _ past => by rw [isPc]; exact past⟩

theorem stopLoop_calm (isPc : run.pc = .stopping i result)
    (stopped : run.stopLoop i result = some next) : Calm run next := by
  obtain ⟨ctx, acted, rfl⟩ := Option.map_eq_some_iff.mp stopped
  cases result with
  | none => exact .of_onStep acted (fun j _ past => by rw [isPc]; exact past)
  | some error =>
    obtain ⟨_, _, -, -, rfl⟩ := MpcContext.onStep_eq_some acted
    exact ⟨rfl, rfl, List.Subset.refl _, fun _ _ past => past.elim⟩

private theorem quit_past {run : ContextRun}
    (isPc : run.pc = .quit result ∨ ∃ sends, run.pc = .quitting result sends)
    (later : pc = .returned result ∨ ∃ sends, pc = .quitting result sends) :
    ∀ i < run.ctx.mpcSteps.length, pc.stage.Past i → run.pc.stage.Past i := by
  intro i _ past
  cases result with
  | none => rcases isPc with isPc | ⟨_, isPc⟩ <;> rw [isPc] <;> trivial
  | some error => rcases later with rfl | ⟨_, rfl⟩ <;> exact past.elim

/-- A move of the main process finishes a step or is a calm one. -/
theorem mainMPCProcess_cases (moved : run.mainMPCProcess kenv cfg choice = some next) :
    (∃ i, run.pc = .finishStep i ∧ run.finishStep kenv cfg choice i = some next ∧
      next.pc = .initStep (i + 1)) ∨ Calm run next := by
  unfold mainMPCProcess at moved
  split at moved
  next j isPc =>
    right
    unfold initMessageLoop at moved
    split at moved
    · cases moved
      exact ⟨rfl, rfl, List.Subset.refl _, fun i _ past => absurd past (Nat.not_lt_zero i)⟩
    · obtain ⟨ctx, acted, rfl⟩ := Option.map_eq_some_iff.mp moved
      exact .of_onStep acted (fun i _ past => absurd past (Nat.not_lt_zero i))
  next j isPc => exact .inr (initStep_calm isPc moved)
  next j isPc =>
    cases moved
    exact .inr ⟨rfl, rfl, List.Subset.refl _, fun i _ past => by rw [isPc]; exact past⟩
  next j parcel rest isPc =>
    obtain ⟨after, sent, rfl⟩ := Option.map_eq_some_iff.mp moved
    exact .inr (p2pMessage_calm sent (fun i _ past => by rw [isPc]; exact past))
  next j isPc => exact .inr (waitFinish_calm isPc moved)
  next j result isPc => exact .inr (stopLoop_calm isPc moved)
  next j isPc =>
    unfold finishStep at moved
    split at moved
    · cases moved
    next step found =>
      split at moved
      · cases moved; exact .inr .of_panic
      · cases moved; exact .inr (.of_fail _)
      next body store srv finishes =>
        -- only here the process passes a step
        cases moved
        refine .inl ⟨j, isPc, ?_, rfl⟩
        simp only [finishStep, found, finishes]
  next =>
    cases moved
    exact .inr ⟨rfl, rfl, List.Subset.refl _, fun _ _ past => past.elim⟩
  next =>
    obtain ⟨after, sent, rfl⟩ := Option.map_eq_some_iff.mp moved
    exact .inr (p2pMessage_calm sent (fun _ _ past => past.elim))
  next result isPc =>
    split at moved
    · cases moved
    · split at moved
      · cases moved
        exact .inr ⟨rfl, rfl, List.Subset.refl _, quit_past (.inl isPc) (.inl rfl)⟩
      · cases moved
        exact .inr ⟨rfl, rfl, List.Subset.refl _, quit_past (.inl isPc) (.inr ⟨0, rfl⟩)⟩
  next result sends isPc =>
    split at moved
    · cases moved
      exact .inr ⟨rfl, rfl, List.Subset.refl _, quit_past (.inr ⟨sends, isPc⟩) (.inl rfl)⟩
    · obtain ⟨ctx, acted, rfl⟩ := Option.map_eq_some_iff.mp moved
      exact .inr (.of_onStep acted (quit_past (.inr ⟨sends, isPc⟩) (.inr ⟨_, rfl⟩)))
  next => cases moved
  next => cases moved

/-- Whatever happens on the node, it finishes a step of the context or is a calm move. -/
theorem step_cases {action : Action} (stepped : run.step kenv cfg action = some next) :
    (∃ choice i, action = .mainMPCProcess choice ∧ run.pc = .finishStep i ∧
      run.finishStep kenv cfg choice i = some next ∧ next.pc = .initStep (i + 1)) ∨
      Calm run next := by
  unfold step at stepped
  split at stepped
  · cases stepped
  · cases action with
    | mainMPCProcess choice =>
      rcases mainMPCProcess_cases stepped with ⟨i, finishes⟩ | calm
      · exact .inl ⟨choice, i, rfl, finishes⟩
      · exact .inr calm
    | messageLoop i =>
      simp only [messageLoop] at stepped
      split at stepped
      · cases stepped
      · obtain ⟨outcome, -, rfl⟩ := Option.map_eq_some_iff.mp stepped
        cases outcome with
        | ok => exact .inr ⟨rfl, rfl, List.Subset.refl _, fun _ _ past => past⟩
        | err => exact .inr .of_panic
        | panic => exact .inr .of_panic
    | getMessage sender msg => exact .inr (getMessage_calm stepped).1
    | quitMpcContext text =>
      simp only [quitMpcContext] at stepped
      split at stepped
      · cases stepped
      · cases stepped
        exact .inr ⟨rfl, rfl, List.Subset.refl _, fun _ _ past => past⟩
    | quitterSend =>
      simp only [quitterSend] at stepped
      split at stepped
      · cases stepped
      · split at stepped
        · cases stepped
          exact .inr ⟨rfl, rfl, List.Subset.refl _, fun _ _ past => past⟩
        · obtain ⟨ctx, acted, rfl⟩ := Option.map_eq_some_iff.mp stepped
          exact .inr (.of_onStep acted (fun _ _ past => past))

theorem Moves.sent_subset (moves : Moves kenv cfg arrives run next) : run.sent ⊆ next.sent := by
  obtain ⟨action, -, stepped⟩ := moves
  rcases step_cases stepped with ⟨choice, i, rfl, isPc, finishes, isNext⟩ | calm
  · unfold finishStep at finishes
    split at finishes
    · cases finishes
    · split at finishes
      all_goals
        cases finishes
        exact List.Subset.refl _
  · exact calm.sent

theorem Moves.length (moves : Moves kenv cfg arrives run next)
    (inbox : Inbox (run.view.Heard arrives) run.ctx.mpcSteps) :
    next.ctx.mpcSteps.length = run.ctx.mpcSteps.length := by
  rcases (moves.refines inbox).moves with same | move
  · simpa [view] using congrArg (fun v => v.bodies.length) same
  · simpa [view] using congrArg List.length move.kinds

/-- A run finishes step `i` in its move from `u` to `v`. -/
structure Finishes (kenv : KeyEnv) (cfg : Config) (arrives : NodeID → MpcMessage → Prop)
    (start run : ContextRun) (i : Nat) (choice : Choice) (u v : ContextRun) : Prop where
  before : Reaches kenv cfg arrives start u
  isPc : u.pc = .finishStep i
  permits : u.Permits arrives (.mainMPCProcess choice)
  finishes : u.finishStep kenv cfg choice i = some v
  isNext : v.pc = .initStep (i + 1)
  after : Reaches kenv cfg arrives v run

section

variable (finished : Finishes kenv cfg arrives start run i choice u v)

include finished

theorem Finishes.move : Moves kenv cfg arrives u v := by
  refine ⟨.mainMPCProcess choice, finished.permits, ?_⟩
  simp [step, mainMPCProcess, finished.isPc, finished.finishes]

theorem Finishes.toNext :
    Reaches kenv cfg arrives start v :=
  finished.before.tail finished.move

/-- What the finishing move has done. -/
theorem Finishes.body :
    ∃ step body store srv, u.ctx.mpcSteps[i]? = some step ∧ step.body.Iterates choice.orders ∧
      step.body.finish kenv cfg u.srv u.ctx.peers u.ctx.mpcResult choice = .ok (body, store, srv) ∧
      v = { u with
        srv
        ctx := { u.ctx with
          mpcResult := store
          mpcSteps := u.ctx.mpcSteps.set i { step with body } }
        pc := .initStep (i + 1) } := by
  obtain ⟨-, isPc, permits, finishes, isNext, -⟩ := finished
  simp only [Permits, isPc] at permits
  unfold finishStep at finishes
  split at finishes
  · cases finishes
  next step found =>
    split at finishes
    · cases finishes
      cases isNext
    · cases finishes
      cases isNext
    next body store srv returned =>
      cases finishes
      exact ⟨step, body, store, srv, found, permits step found, returned, rfl⟩

end

theorem Reaches.finished (reaches : Reaches kenv cfg arrives start run)
    (initially : Inbox (start.view.Heard arrives) start.ctx.mpcSteps)
    (inside : i < start.ctx.mpcSteps.length) (notYet : ¬start.pc.stage.Past i) :
    start.ctx.mpcSteps.length = run.ctx.mpcSteps.length ∧
      (run.pc.stage.Past i → ∃ choice u v, Finishes kenv cfg arrives start run i choice u v) := by
  induction reaches with
  | refl => exact ⟨rfl, fun past => absurd past notYet⟩
  | @tail s t before last ih =>
    obtain ⟨length, earlier⟩ := ih
    obtain ⟨inbox, -⟩ := Reaches.refines before initially
    refine ⟨length.trans (last.length inbox).symm, fun past => ?_⟩
    have further (was : s.pc.stage.Past i) :
        ∃ choice u v, Finishes kenv cfg arrives start t i choice u v := by
      obtain ⟨choice, u, v, finishes⟩ := earlier was
      exact ⟨choice, u, v, { finishes with after := finishes.after.tail last }⟩
    obtain ⟨action, permits, stepped⟩ := id last
    rcases step_cases stepped with ⟨choice, j, rfl, isPc, finishes, isNext⟩ | calm
    · rw [isNext] at past
      rcases Nat.lt_succ_iff_lt_or_eq.mp past with was | rfl
      · exact further (by rw [isPc]; exact was)
      · exact ⟨choice, s, t, before, isPc, permits, finishes, isNext, .refl⟩
    · exact further (calm.past i (length ▸ inside) past)

end ContextRun
end SchnorrMpc
